import MmapXv6.Vm.Severed

/-! fork of an address space. copyuvm panics at a page below sz that has no page table.
exec and sbrk make the tables of what they add, up to one case without memory, and no
call takes a table away. mmap raises sz and makes no table, so a mapping that reaches
into the next 4 MB and is not touched makes fork panic. -/
namespace MmapXv6

open Lib (bind_ok Reaches)

section Exec
variable {u w : Uvm} {a oldsz newsz r : Nat}

theorem allocuvm_took (aligned : oldsz % PGSIZE = 0) (small : oldsz < newsz)
    (done : allocuvm u oldsz newsz = .ok (r, w)) (served : r ≠ 0) : u.kmem.freelist ≠ [] := by
  rcases allocuvm_cases done with ⟨-, zero, -⟩ | ⟨less, -, -⟩ | ⟨-, low, loop⟩
  · exact absurd zero served
  · omega
  · rw [PGROUNDUP_aligned aligned (by omega)] at loop
    cases loop with
    | stop above => omega
    | fail _ _ _ => exact absurd rfl served
    | page _ _ taken _ _ _ =>
      rw [(kalloc_some taken).1]
      exact List.cons_ne_nil _ _

theorem window_lower {v sz top : Nat} (inside : ¬v * PGSIZE < sz)
    (upper : v / NPTENTRIES ≠ (top - 1) / PGSIZE / NPTENTRIES) (below : v * PGSIZE < top)
    (window : (sz + 4095) / 4096 * 4096 + 9 * PGSIZE = top) :
    (sz - 1) / PGSIZE * PGSIZE < sz ∧ v / NPTENTRIES = (sz - 1) / PGSIZE / NPTENTRIES := by
  subst window
  unfold PGSIZE NPTENTRIES at *
  omega

/-- The tables of an image and of the top page of its stack window are all the tables:
of the hole between them, the upper part is next to the top page and the lower part next
to the image. -/
theorem window_covered {d : PgDir} {sz top : Nat} (image : Covered d sz)
    (stack : (d.tab ((top - 1) / PGSIZE / NPTENTRIES)).isSome)
      (window : PGROUNDUP sz + 9 * PGSIZE = top)
    (low : sz < KERNBASE) : Covered d top := by
  intro v below
  rw [PGROUNDUP_eq (by simp only [KERNBASE] at low; omega)] at window
  by_cases inside : v * PGSIZE < sz
  · exact image v inside
  by_cases upper : v / NPTENTRIES = (top - 1) / PGSIZE / NPTENTRIES
  · rw [upper]
    exact stack
  · -- the boundary of two tables lies above v, so the image ends in the lower one
    obtain ⟨last, lower⟩ := window_lower inside upper below window
    rw [lower]
    exact image _ last

/-- The process right after exec of a file that the loader stores inside the image. An
argument string lies in user memory. -/
def Execed (t : Vm) : Prop :=
  ∃ s path argv, s.kmem.Legal ∧ StaysInside s path ∧ (∀ arg ∈ argv, arg.length < 2 ^ 31) ∧
    exec s path argv = .ok (0, t)

structure Forkable (s : Vm) : Prop where
  covered : Covered s.proc.pgdir s.proc.sz
  low : s.proc.sz ≤ KERNBASE
  legal : s.kmem.Legal

theorem Execed.forkable {t : Vm} (h : Execed t) : Forkable t := by
  obtain ⟨s, path, argv, legal, -, short, done⟩ := h
  cases exec_end done with
  | @args _ u v w sz sz' _ _ _ _ opens loaded grown served ended =>
    cases ended with
    | @commit x k _ copied there freed =>
      have new := opens.newDir legal.data
      have load := new.loaded loaded
      obtain ⟨low, filled⟩ := load.image rfl
      obtain ⟨page, next⟩ := stackPage_eq low
      rw [next, page] at grown
      have aligned := PGROUNDUP_mod sz
      have start : PGROUNDUP sz + 8 * PGSIZE < PGROUNDUP sz + 9 * PGSIZE := by
        simp only [PGSIZE]
        omega
      have small : PGROUNDUP sz + 8 * PGSIZE < KERNBASE := by
        rcases allocuvm_cases grown with ⟨-, zero, -⟩ | ⟨less, -⟩ | ⟨-, below, -⟩
        · exact absurd zero served
        · omega
        · omega
      obtain ⟨size, top⟩ := allocuvm_size small grown served
      have end_ : sz' = PGROUNDUP sz + 9 * PGSIZE := by omega
      have took := allocuvm_took (by simp only [PGSIZE] at aligned ⊢; omega) start grown served
      have stack : Moves _ True v w := allocuvm_moves grown
      have args : Moves False True w x := copied.1 True (.inl trivial)
      refine ⟨window_covered (fun y below => ?_) ?_ end_.symm low, by dsimp only; omega, ?_⟩
      · obtain ⟨e, entry⟩ := Option.isSome_iff_exists.mp (filled.all took below)
        exact args.tables (stack.tables (PgDir.table_of_entry entry))
      · have last := there (by rw [end_]; simp only [PGSIZE] at aligned ⊢; omega) (by omega)
          (by simp only [KERNBASE] at top; omega) short
        obtain ⟨e, entry⟩ := Option.isSome_iff_exists.mp last
        exact args.tables (PgDir.table_of_entry entry)
      · have made := setupkvm_kvmMade legal.data opens.2.2
        have loads := load.moves True (.inl trivial)
        have old : x.kmem.Keeps k := freevm_keeps (u := ⟨s.proc.pgdir, x.kmem⟩) freed
        exact legal.keeps
          ((((made.keeps.trans loads.keeps).trans stack.keeps).trans args.keeps).trans old)

end Exec

section Steps
variable {s t : Vm} {u w : Uvm} {a oldsz newsz r : Nat}

theorem Allocs.covered (h : Allocs oldsz newsz u a r w) (low : newsz < KERNBASE)
    (fed : u.starves a newsz = false) (covered : Covered u.pgdir a) (served : r ≠ 0) :
    Covered w.pgdir newsz := by
  induction h with
  | stop above => exact fun x lt => covered x (by omega)
  | fail _ _ _ => exact absurd rfl served
  | @page u v w a mem r k q aligned below taken mapped _ _ ih =>
    cases mappages_maps aligned (below.trans low) (kalloc_hands taken fun _ => 0) mapped with
    | done moves has free sub here others =>
      refine ih (by rw [Maps.starves_eq below taken has free, fed]) (fun x lt => ?_) served
      have table : v.pgdir.has (x / NPTENTRIES) = true := by
        rw [has, Function.update_apply]
        split
        · rfl
        · rename_i other
          refine covered x ?_
          unfold PDX at other
          simp only [PGSIZE] at aligned lt other ⊢
          by_contra above
          refine other ?_
          congr 1
          omega
      exact table
    | none eq empty absent =>
      rw [starves_last below taken empty absent] at fed
      cases fed

theorem allocuvm_covered (small : oldsz ≤ KERNBASE)
    (fed : u.starves (PGROUNDUP oldsz) newsz = false) (covered : Covered u.pgdir oldsz)
    (done : allocuvm u oldsz newsz = .ok (r, w)) (served : r ≠ 0) :
    Covered w.pgdir r ∧ r ≤ KERNBASE := by
  rcases allocuvm_cases done with ⟨-, zero, -⟩ | ⟨-, rfl, rfl⟩ | ⟨-, low, loop⟩
  · exact absurd zero served
  · exact ⟨covered, small⟩
  · obtain rfl := loop.result.resolve_left served
    refine ⟨loop.covered low fed (fun v lt => covered v ?_) served, Nat.le_of_lt low⟩
    rw [PGROUNDUP_eq (by simp only [KERNBASE] at small; omega)] at lt
    simp only [PGSIZE] at lt ⊢
    omega

/-- The steps of the process that called exec, with the other processes between them. -/
def SpaceAct.Own : SpaceAct → Prop
  | .fork _ => False
  | .outside kmem _ _ => kmem.Legal
  | _ => True

/-- The steps that leave no page below sz without a page table: a mapping lies below
KERNBASE and in parts of 4 MB that have theirs, munmap stays in the user's half, and a growth
does not run out of memory at a page table. -/
def SpaceAct.Tabled (s : Vm) : SpaceAct → Prop
  | .mmap fd addr => MapsFile s fd addr fun size =>
      PGROUNDUP ((s.proc.sz + size) % 2 ^ 32) ≤ KERNBASE ∧
        Covered s.proc.pgdir (PGROUNDUP ((s.proc.sz + size) % 2 ^ 32))
  | .munmap addr => UnmapsUser s.proc addr
  | .sbrk n => 0 < n → s.uvm.starves (PGROUNDUP s.proc.sz) (brk s.proc n) = false
  | _ => True

theorem Forkable.keep (h : Forkable s) (sz : t.proc.sz = s.proc.sz)
    (tables : ∀ i, (s.proc.pgdir.tab i).isSome → (t.proc.pgdir.tab i).isSome)
    (keeps : s.kmem.Keeps t.kmem) : Forkable t :=
  ⟨fun v lt => tables _ (h.covered v (by rw [← sz]; exact lt)), by rw [sz]; exact h.low,
    h.legal.keeps keeps⟩

theorem Forkable.mmap (h : Forkable s) {fd : Int} {addr : Nat} {q : Int}
    (tabled : SpaceAct.Tabled s (.mmap fd addr)) (done : mmap s fd addr = .ok (q, t)) :
    Forkable t := by
  cases mmap_mapping done with
  | fail _ => exact h
  | @map _ i f ip opened inode free stored =>
    dsimp only [SpaceAct.Tabled] at tabled
    obtain ⟨low, covered⟩ := tabled.size opened inode free
    have mapped : Forkable (s.addMmap i f (s.fs.inode ip).size) := ⟨covered, low, h.legal⟩
    have moves := storeWord_moves stored
    exact mapped.keep (Wider.storeWord stored).sz (fun _ => moves.tables) moves.keeps

theorem Forkable.munmap (h : Forkable s) {addr : Nat} {q : Int}
    (done : munmap s addr = .ok (q, t)) : Forkable t := by
  unfold MmapXv6.munmap at done
  split at done
  · cases done
    exact h
  · split at done
    · cases done
      exact h
    · obtain ⟨x, at_, eq⟩ := bind_ok.mp done
      cases eq
      obtain ⟨w, r, u, -, proc, -, freed, rfl⟩ := munmapAt_cases at_
      obtain ⟨keeps, tab⟩ := deallocuvm_keeps freed
      refine h.keep (show w.proc.sz = s.proc.sz by rw [proc]) (fun i there => ?_) keeps
      change (u.pgdir.tab i).isSome
      rw [tab]
      exact there

theorem Forkable.sbrk (h : Forkable s) {n q : Int} (tabled : SpaceAct.Tabled s (.sbrk n))
    (done : growproc s n = .ok (q, t)) : Forkable t := by
  cases growproc_resizing done with
  | same => exact h
  | @grow r pos grown =>
    have moves : Moves _ True s.uvm r.2 := allocuvm_moves grown
    unfold Vm.resized
    split
    · exact h.keep rfl (fun _ => moves.tables) moves.keeps
    · obtain ⟨covered, low⟩ := allocuvm_covered h.low (tabled pos) h.covered grown ‹_›
      exact ⟨covered, low, h.legal.keeps moves.keeps⟩
  | @shrink r neg freed =>
    obtain ⟨keeps, tab⟩ := deallocuvm_keeps freed
    have size : r.1 ≤ s.proc.sz := by
      rcases deallocuvm_cases h.low freed with ⟨-, old, -⟩ | ⟨less, new, -⟩ <;> omega
    have tables : ∀ i, (s.proc.pgdir.tab i).isSome → (r.2.pgdir.tab i).isSome := by
      intro i there
      rw [tab]
      exact there
    unfold Vm.resized
    split
    · exact h.keep rfl tables keeps
    · exact ⟨fun v lt => tables _ (h.covered v (lt_of_lt_of_le lt size)), size.trans h.low,
        h.legal.keeps keeps⟩

theorem Forkable.step (h : Forkable s) {a : SpaceAct} (legal : a.Legal) (own : a.Own)
    (tabled : a.Tabled s) (done : spaceStep s a = .ok t) : Forkable t := by
  cases a with
  | mmap fd addr =>
    obtain ⟨⟨q, x⟩, mapped, eq⟩ := bind_ok.mp done
    cases eq
    exact h.mmap tabled mapped
  | munmap addr =>
    obtain ⟨⟨q, x⟩, unmapped, eq⟩ := bind_ok.mp done
    cases eq
    exact h.munmap unmapped
  | sbrk n =>
    obtain ⟨⟨q, x⟩, grown, eq⟩ := bind_ok.mp done
    cases eq
    exact h.sbrk tabled grown
  | fork slot => exact own.elim
  | load a =>
    obtain ⟨⟨b, x⟩, loaded, eq⟩ := bind_ok.mp done
    cases eq
    have moves := load_moves loaded
    exact h.keep (Wider.load legal loaded).sz (fun _ => moves.tables) moves.keeps
  | store a b =>
    obtain ⟨⟨ok, x⟩, stored, eq⟩ := bind_ok.mp done
    cases eq
    have moves := store_moves legal stored
    exact h.keep (Wider.store legal stored).sz (fun _ => moves.tables) moves.keeps
  | outside kmem fs ofile =>
    cases done
    exact ⟨h.covered, h.low, own⟩

end Steps

section Panic
variable {u : Uvm}

theorem copyuvmLoop_bare {parent : PgDir} {n j sz : Nat} (below : j * PGSIZE < sz)
    (bare : parent.tab (j / NPTENTRIES) = none) :
    copyuvmLoop parent (n + 1) u (j * PGSIZE) sz = .error .copyuvmNoPte := by
  have dir : PDX (j * PGSIZE) = j / NPTENTRIES := by
    unfold PDX
    rw [Nat.mul_div_cancel _ (by decide)]
  rw [copyuvmLoop, if_pos below, dir, bare]
  rfl

theorem copyuvmLoop_panics {parent : PgDir} {n i j sz : Nat} (aligned : i % PGSIZE = 0)
    (low : sz ≤ KERNBASE) (covered : Covered parent (j * PGSIZE))
    (bare : parent.tab (j / NPTENTRIES) = none) (below : j * PGSIZE < sz) (le : i ≤ j * PGSIZE)
    (fuel : j * PGSIZE ≤ i + n * PGSIZE)
    (vacant : ∀ v, i ≤ v * PGSIZE → v < UPAGES → u.pgdir.entry v = none)
    (room : 2 * (j * PGSIZE - i) ≤ u.kmem.freelist.length * PGSIZE) :
    copyuvmLoop parent (n + 1) u i sz = .error .copyuvmNoPte := by
  induction n generalizing u i with
  | zero =>
    obtain rfl : i = j * PGSIZE := by omega
    exact copyuvmLoop_bare below bare
  | succ n ih =>
    by_cases at_ : i = j * PGSIZE
    · subst at_
      exact copyuvmLoop_bare below bare
    rw [Nat.succ_mul] at fuel
    have here : i / PGSIZE * PGSIZE = i := by
      simp only [PGSIZE] at aligned ⊢
      omega
    have next : i + PGSIZE ≤ j * PGSIZE := by
      simp only [PGSIZE] at aligned le at_ ⊢
      omega
    have inside : i < sz := (lt_of_le_of_ne le at_).trans below
    have table : (parent.tab (PDX i)).isSome :=
      covered (i / PGSIZE) (by rw [here]; exact lt_of_le_of_ne le at_)
    have later : ∀ v, i + PGSIZE ≤ v * PGSIZE → v < UPAGES → u.pgdir.entry v = none :=
      fun v lo user => vacant v (Nat.le_of_add_right_le lo) user
    rw [copyuvmLoop, if_pos inside, word_next inside low,
      if_neg (by simpa [Option.isSome_iff_ne_none] using table)]
    cases parent.pte (i / PGSIZE) with
    | none => exact ih (page_next aligned) next (by omega) later (by omega)
    | some e =>
      cases taken : u.kmem.kalloc with
      | none =>
        rw [kalloc_none taken] at room
        simp only [PGSIZE, List.length_nil] at room next
        omega
      | some q =>
        obtain ⟨mem, k⟩ := q
        have list := (kalloc_some taken).1
        have word : i + PGSIZE ≤ 2 ^ 32 := by
          simp only [PGSIZE, KERNBASE] at low next below ⊢
          omega
        obtain ⟨⟨q, w⟩, mapped⟩ := mappages_ok
          (u := ⟨u.pgdir, { k with mem := Function.update k.mem mem (k.mem e.pa) }⟩)
          { e with pa := mem } aligned word
          (vacant _ here.ge (user_page (lt_of_lt_of_le inside low)))
        dsimp only
        rw [mapped, Lib.ok_bind]
        rw [list, List.length_cons] at room
        cases mappages_maps aligned (lt_of_lt_of_le inside low)
          (show u.kmem.Hands _ ({ e with pa := mem } : Pte).pa from
            kalloc_hands taken _) mapped with
        | done _ _ free _ _ others =>
          dsimp only
          rw [if_neg (by decide)]
          have one : u.pgdir.tableNeed i ≤ 1 := by
            unfold PgDir.tableNeed
            split <;> omega
          dsimp only at free
          refine ih (page_next aligned) next (by omega) (fun v lo user => ?_) ?_
          · rw [others v (by rintro rfl; rw [here] at lo; simp only [PGSIZE] at lo; omega)]
            exact later v lo user
          · simp only [PGSIZE] at room next ⊢
            omega
        | none _ empty _ =>
          dsimp only at empty
          rw [empty] at room
          simp only [PGSIZE, List.length_nil] at room next
          omega

theorem fork_bare {s : Vm} {j : Nat} (legal : s.kmem.Legal) (low : s.proc.sz ≤ KERNBASE)
    (covered : Covered s.proc.pgdir (j * PGSIZE)) (bare : s.proc.pgdir.tab (j / NPTENTRIES) = none)
    (below : j * PGSIZE < s.proc.sz) (room : 2 * j + KVMPAGES + 1 ≤ s.kmem.freelist.length)
      (slot : Proc) :
    fork s slot = .error .copyuvmNoPte := by
  cases taken : s.kmem.kalloc with
  | none =>
    rw [kalloc_none taken, List.length_nil] at room
    omega
  | some q =>
    obtain ⟨kstack, k⟩ := q
    rw [(kalloc_some taken).1, List.length_cons] at room
    have hands := kalloc_hands taken (k.mem kstack)
    have data : k.kdata.1 % PGSIZE = 0 := by
      rw [show k.kdata = s.kmem.kdata from hands.kdata]
      exact legal.data
    obtain ⟨d, k', setup, made⟩ := setupkvm_made data
    cases made with
    | none short _ _ _ _ => omega
    | some length _ user _ _ _ _ _ =>
      have panics := copyuvmLoop_panics (n := NPAGES) (i := 0) (u := ⟨_, k'⟩)
        (by decide) low covered bare
        below (Nat.zero_le _) ?_ (fun v _ low => user v low) ?_
      · unfold fork copyuvm
        rw [taken]
        dsimp only
        rw [setup, Lib.ok_bind]
        dsimp only
        rw [panics]
        rfl
      · have small := below.trans_le low
        simp only [PGSIZE, KERNBASE, NPAGES, NPDENTRIES, NPTENTRIES] at small ⊢
        omega
      · simp only [PGSIZE]
        omega

structure AtBoundary (s : Vm) : Prop extends CanMap s where
  size : s.proc.sz = 1024 * PGSIZE
  covered : Covered s.proc.pgdir (1024 * PGSIZE)
  bare : s.proc.pgdir.tab 1 = none
  legal : s.kmem.Legal
  free : 2 * 1024 + KVMPAGES + 1 ≤ s.kmem.freelist.length

theorem AtBoundary.mmap_panics {s : Vm} (h : AtBoundary s) :
    ∃ t, spaceStep s (.mmap 0 0x8FF8) = .ok t ∧ ∀ slot, fork t slot = .error .copyuvmNoPte := by
  obtain ⟨t, mapped, size, tab, free, keeps, -⟩ := h.mmap (by rw [h.size]; decide)
  rw [h.size] at size
  refine ⟨t, mapped, fun slot => fork_bare (j := 1024) (h.legal.keeps keeps) ?_ ?_ ?_ ?_ ?_ slot⟩
  · rw [size]
    decide
  · intro x below
    rw [tab]
    exact h.covered x below
  · rw [tab]
    exact h.bare
  · rw [size]
    decide
  · rw [free]
    exact h.free

end Panic

def spacious : Vm := { loader with kmem := { freelist := List.range' 0x900 4000 } }

theorem spacious_legal : spacious.kmem.Legal := freelist_legal le_rfl

theorem spacious_execs : ∃ s v, exec spacious programPath [] = .ok (0, s) ∧ StackOnly v ∧
    Begun { spacious with proc := { spacious.proc with sstack := 0x1000 } } s v ∧
    3933 ≤ s.kmem.freelist.length := by
  have length : spacious.kmem.freelist.length = 4000 := List.length_range'
  obtain ⟨s, v, ran, stack, begun, used⟩ := program_execs (s := spacious)
    (imagePgdir_valid rfl rfl imagePgdir_pages rfl spacious_legal.page) spacious_legal rfl
    (by rw [length]; decide)
  have free := begun.free
  rw [length] at used
  exact ⟨s, v, ran, stack, begun, by simp only [KVMPAGES] at used; omega⟩

theorem spacious_execed {s : Vm} (ran : exec spacious programPath [] = .ok (0, s)) : Execed s :=
  ⟨spacious, programPath, [], spacious_legal, program_inside rfl, by simp, ran⟩

theorem spacious_grows : ∃ t, Reaches spaceStep (fun _ a => a.Legal ∧ a.Own) Execed t ∧
    AtBoundary t := by
  obtain ⟨s, v, ran, stack, begun, free⟩ := spacious_execs
  have execed := spacious_execed ran
  have ready := execed.forkable
  have others : ∀ x, 9 ≤ x → x < UPAGES → s.entry x = none := by
    intro x above user
    unfold Vm.entry
    rw [begun.pgdir]
    exact stack.others x user (by omega)
  obtain ⟨u, alloc, covers, less, grown⟩ := growproc_room (s := s) (n := 9)
    (d := 1015) begun.sz others
    (by decide) (by decide) (by omega)
  have moves : Moves _ True s.uvm u := allocuvm_moves alloc
  have sbrk : spaceStep s (.sbrk (1015 * PGSIZE : Nat)) = .ok { s with
      proc := { s.proc with sz := (9 + 1015) * PGSIZE, pgdir := u.pgdir }, kmem := u.kmem } := by
    unfold spaceStep
    dsimp only
    rw [grown]
    rfl
  have start : Reaches spaceStep (fun _ a => a.Legal ∧ a.Own) Execed s := .start execed
  refine ⟨_, start.step (show (SpaceAct.sbrk (1015 * PGSIZE : Nat)).Legal ∧ SpaceAct.Own _ from
    ⟨by decide, trivial⟩) sbrk, ?_⟩
  constructor
  case size => rfl
  case covered =>
    intro x below
    by_cases low : x * PGSIZE < 9 * PGSIZE
    · exact moves.tables (ready.covered x (by rw [begun.sz]; exact low))
    · obtain ⟨e, there⟩ := Option.isSome_iff_exists.mp (covers.range x (by omega) below)
      exact PgDir.table_of_entry there
  case bare =>
    have none : u.pgdir.has 1 = false := by
      rw [allocuvm_has (by decide) alloc (by decide)]
      rw [show s.uvm.pgdir = v.pgdir from begun.pgdir]
      exact stack.bare
    simpa [PgDir.has] using none
  case toCanMap =>
    obtain ⟨⟨e, top, writable⟩, opened, inode, length, slot⟩ :=
      begun.canMap stack rfl rfl rfl (by decide)
    refine ⟨⟨e, ?_, writable⟩, opened, inode, length, slot⟩
    exact (covers.outside 8 (.inl (by decide))).trans top
  case legal => exact ready.legal.keeps moves.keeps
  case free =>
    dsimp only
    simp only [KVMPAGES]
    omega

end MmapXv6
