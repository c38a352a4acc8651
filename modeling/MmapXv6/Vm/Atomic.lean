import MmapXv6.Vm.Layout
import MmapXv6.Vm.Loads
import MmapXv6.Vm.Returns

/-! An exec that fails. Up to the point where the segments are loaded nothing of the
process is written, and all memory that is written comes from the free list. Then
proc->sstack gets the start of the new stack window, and exec can still fail for want of
a page or because of its arguments. -/
namespace MmapXv6

open Lib (bind_ok word)

variable {i : Fin NINODE} {ok : Bool} {sz : Nat} {u w : Uvm}

section Program

def program : Inode := { size := 52, data := fun j => [0x7F, 0x45, 0x4C, 0x46].getD j 0 }

theorem program_header : readi program 0 ELFHDRSIZE = .ok (52, program.data) := by
  unfold readi
  rw [if_neg (by decide), if_neg (by decide)]
  simp [program]

/-- The directory of such a program when its arguments are to be copied: the top page
of the stack and nothing else of the user's. -/
structure StackOnly (w : Uvm) : Prop where
  top : ∃ e, w.pgdir.entry 8 = some e ∧ e.user = true ∧ e.writable = true
  bare : w.pgdir.has 1 = false
  others : ∀ v, v < UPAGES → v ≠ 8 → w.pgdir.entry v = none
  guarded : w.pgdir.Guarded
  valid : w.Valid

theorem allocuvm_stack (empty : ∀ v, v < UPAGES → u.pgdir.entry v = none)
    (bare : u.pgdir.has 1 = false) (guarded : u.pgdir.Guarded) (valid : u.Valid)
      (room : 2 ≤ u.kmem.freelist.length) :
    ∃ w, allocuvm u 0x8000 0x9000 = .ok (0x9000, w) ∧ StackOnly w ∧ w.kmem.kend = u.kmem.kend ∧
      u.kmem.freelist.length ≤ w.kmem.freelist.length + 2 := by
  have two : u.pgdir.need 0x8000 0x9000 ≤ 2 := by
    unfold PgDir.need PgDir.tableNeed
    rw [if_pos (by decide)]
    have size : (0x9000 - 0x8000 + (PGSIZE - 1)) / PGSIZE + (PDX (0x9000 - 1) - PDX 0x8000) = 1 :=
        by decide
    split <;> omega
  have need := two.trans room
  have returned : ∃ w, allocuvmLoop (NPAGES + 1) u 0x8000 0x8000 0x9000 = .ok (0x9000, w) :=
    allocuvmLoop_returns (by decide) (by decide) need
      (fun v _ high => empty v (by simp only [PGSIZE, UPAGES, KERNBASE] at high ⊢; omega))
      (by decide)
  obtain ⟨w, grown⟩ := returned
  obtain ⟨-, covers⟩ := allocuvmLoop_room (by decide) (by decide) need grown
  have alloc : allocuvm u 0x8000 0x9000 = .ok (0x9000, w) := by
    unfold allocuvm
    rw [if_neg (by decide), if_neg (by decide)]
    exact grown
  have top : ∃ e, w.pgdir.entry 8 = some e ∧ e.user = true ∧ e.writable = true := by
    have there := covers.range 8 (by decide) (by decide)
    rcases (allocuvm_page (a := 0x8000) (by decide) (by decide) alloc (by decide)).entry with same
      | ⟨pa, set⟩
    · rw [same, empty 8 (by decide)] at there
      cases there
    · rw [set]
      exact ⟨userPte pa, Function.update_self _ _ _, rfl, rfl⟩
  have moves : Moves _ False u w := allocuvm_moves alloc
  have has : w.pgdir.has 1 = false := (allocuvm_has (by decide) alloc (by decide)).trans bare
  refine ⟨w, alloc, ⟨top, has, fun v user ne => ?_, allocuvm_guarded guarded alloc,
    moves.valid valid⟩, moves.fixed.1, le_trans covers.free (Nat.add_le_add_left two _)⟩
  rw [covers.outside v (by simp only [PGSIZE]; omega)]
  exact empty v user

theorem exec_program {s : Vm} (path : Path) (found : path.ip = some i)
    (file : s.fs.inode i = program) (legal : s.kmem.Legal)
    (room : KVMPAGES + 2 ≤ s.kmem.freelist.length) (argv : List (List UInt8)) :
    ∃ w, StackOnly w ∧ w.kmem.kend = s.kmem.kend ∧
      s.kmem.freelist.length ≤ w.kmem.freelist.length + KVMPAGES + 2 ∧ exec s path argv =
      execArgs { s with proc := { s.proc with sstack := 0x1000 } } path.last 0 w 0x9000 argv := by
  obtain ⟨d, k, setup, made⟩ := setupkvm_made legal.data
  cases d with
  | none =>
    cases made with
    | none short _ _ _ _ => omega
  | some d =>
    have valid := legal.made made
    cases made with
    | some length has user _ _ kend _ _ =>
      obtain ⟨w, alloc, stack, same, used⟩ := allocuvm_stack (u := ⟨d, k⟩) user (has 1)
          (setupkvm_guarded setup) valid
        (by dsimp only; omega)
      refine ⟨w, stack, same.trans kend, by dsimp only at used; omega, ?_⟩
      unfold exec execWith
      rw [found]
      dsimp only
      rw [file, program_header, Lib.ok_bind]
      rw [if_neg (by decide), setup, Lib.ok_bind, Fs.iput_iget]
      dsimp only
      have none : word program.data 44 % 2 ^ 16 = 0 := by decide
      rw [none, loadSegmentsWith, Lib.ok_bind]
      have entry : word program.data 24 = 0 := by decide
      have start : PGROUNDUP ((0 + PGSIZE) % 2 ^ 32) = 0x1000 := by decide
      have page : PGROUNDUP ((0x1000 + PGSIZE * (MAXSTACKPAGES - 1)) % 2 ^ 32) = 0x8000 := by decide
      have next : (0x8000 + PGSIZE) % 2 ^ 32 = 0x9000 := by decide
      rw [if_pos rfl, entry]
      unfold execStack
      dsimp only
      rw [start, page, next, alloc, Lib.ok_bind]
      dsimp only
      rw [if_neg (by decide)]

theorem execArgs_long {s : Vm} {name arg : List UInt8} {entry : Nat} (stack : StackOnly w)
    (long : arg.length = 4200) :
    ∃ k, execArgs s name entry w 0x9000 [arg] = .ok (-1, { s with kmem := k }) := by
  obtain ⟨k, freed⟩ := freevm_returns stack.valid
  obtain ⟨e, top, -, -⟩ := stack.top
  have table : (w.pgdir.tab 0).isSome := PgDir.table_of_entry top
  have below : w.pgdir.pte 7 = none := by
    rw [← w.pgdir.entry_of_table (v := 7) table]
    exact stack.others 7 (by decide) (by decide)
  have looked : uva2ka w.pgdir (PGROUNDDOWN 32660) = .ok none := by
    have page : PGROUNDDOWN 32660 = 28672 := by decide
    rw [page]
    unfold uva2ka
    have dir : PDX 28672 = 0 := by decide
    have index : 28672 / PGSIZE = 7 := by decide
    rw [dir, index, below, if_neg (by simpa [Option.isSome_iff_ne_none] using table)]
  have copied : copyout w 32660 (arg ++ [0]) = .ok (-1, w) := by
    unfold copyout
    rw [copyoutLoop, if_neg (by simp), looked]
    rfl
  have pushed : pushArgs [arg] 0 0x9000 [] w = .ok (false, 32660, [], w) := by
    have sp : (0x9000 + 2 ^ 32 - (4200 + 1)) % 2 ^ 32 / 4 * 4 = 32660 := by decide
    rw [pushArgs, if_neg (by decide), long, sp]
    dsimp only
    rw [copied]
    rfl
  refine ⟨k, ?_⟩
  unfold execArgs
  rw [pushed, Lib.ok_bind]
  dsimp only
  rw [if_neg (by decide)]
  unfold execBad
  rw [freed]
  rfl

def loader : Vm :=
  { image with
    kmem := { freelist := List.range' 0x900 80 }
    fs := { image.fs with inode := fun _ => program } }

def programPath : Path := ⟨[0x2F, 0x70], some 0⟩

theorem freelist_legal {n : Nat} (few : n ≤ 4000) :
    Kmem.Legal { freelist := List.range' 0x900 n } := by
  refine ⟨by change 0 < 0x115; decide, fun x mem => ?_,
    by change ({} : Kmem).kdata.1 % _ = 0; decide⟩
  have := List.mem_range'_1.mp mem
  simp only [PHYSTOP, PGSIZE]
  change 0x115 ≤ x ∧ x < _
  omega

theorem loader_legal : loader.kmem.Legal := freelist_legal (by decide)

def loaderAt (sstack : Nat) : Vm := { loader with proc := { loader.proc with sstack := sstack } }

theorem exec_long {s : Vm} (file : s.fs.inode 0 = program)
    (list : s.kmem = { freelist := List.range' 0x900 80 }) :
    ∃ t, exec s programPath [List.replicate 4200 0] = .ok (-1, t) ∧ t.proc.sstack = 0x1000 := by
  have legal : s.kmem.Legal := list ▸ freelist_legal (by decide)
  obtain ⟨w, stack, -, -, run⟩ := exec_program programPath rfl file legal
    (by rw [list]; decide) [List.replicate 4200 0]
  obtain ⟨k, failed⟩ := execArgs_long stack List.length_replicate
  exact ⟨_, run.trans failed, rfl⟩

end Program

structure Unchanged (s t : Vm) : Prop where
  proc : t.proc = s.proc
  memory : ∀ v e, v < UPAGES → s.entry v = some e → t.kmem.mem e.pa = s.kmem.mem e.pa
  files : t.fs = s.fs

/-- The user pages of the process are not free, and the kernel's data starts a page. -/
structure Standing (s : Vm) : Prop where
  used : ∀ v e, v < UPAGES → s.entry v = some e → e.pa ∉ s.kmem.freelist
  data : s.kmem.kdata.1 % PGSIZE = 0

/-- The file at path gives an image of size sz: it is a program, every segment can be
read, and there is memory. -/
def LoadsImage (s : Vm) (path : Path) (sz : Nat) : Prop :=
  ∃ i A, path.ip = some i ∧ (s.fs.inode i).isElf ∧ KVMPAGES ≤ s.kmem.freelist.length ∧
    ((s.fs.inode i).plan s.kmem.freelist.length).2 = some (sz, A)

def PathFits (s : Vm) (path : Path) : Prop :=
  ∀ i, path.ip = some i → segmentsFit (s.fs.inode i) (s.fs.inode i).phnum (s.fs.inode i).phoff

section Atomic
variable {s t : Vm} {path : Path} {argv : List (List UInt8)}

structure NewDir (s : Vm) (u : Uvm) : Prop where
  room : KVMPAGES ≤ s.kmem.freelist.length
  acct : u.acct = ⟨kernelTab, s.kmem.freelist.length - KVMPAGES⟩
  count : ∀ x, u.count x = s.kmem.freelist.count x
  mem : ∀ x, x ∉ s.kmem.freelist → u.kmem.mem x = s.kmem.mem x
  guarded : u.pgdir.Guarded
  filled : Filled u 0

theorem Opens.newDir (data : s.kmem.kdata.1 % PGSIZE = 0)
    (opens : Opens s path i u) : NewDir s u := by
  obtain ⟨-, -, setup⟩ := opens
  cases setupkvm_kvmMade data setup with
  | some length has _ _ count _ _ mem =>
    refine ⟨by omega, ?_, count, mem, setupkvm_guarded setup,
      fun v lt => absurd lt (Nat.not_lt_zero _)⟩
    unfold Uvm.acct
    rw [funext has]
    congr 1
    omega

theorem NewDir.spare {leak : Prop} (new : NewDir s u) (moves : Moves leak False u w)
    {x : Nat}
    (used : x ∉ s.kmem.freelist) : w.count x = 0 ∧ w.kmem.mem x = s.kmem.mem x := by
  have absent := new.count x
  rw [List.count_eq_zero_of_not_mem used] at absent
  have less := moves.count_le x
  exact ⟨by omega, (moves.mem_eq absent).trans (new.mem x used)⟩

theorem NewDir.freed {leak : Prop} {k : Kmem} (new : NewDir s u)
    (moves : Moves leak False u w) (freed : freevm w = .ok k) {x : Nat}
    (used : x ∉ s.kmem.freelist) : k.mem x = s.kmem.mem x := by
  obtain ⟨absent, mem⟩ := new.spare moves used
  rw [(freevm_frees freed).mem x absent, mem]

theorem NewDir.loaded (new : NewDir s u)
    (loaded : loadSegments (s.fs.inode i) (s.fs.inode i).phnum (s.fs.inode i).phoff 0 u =
      .ok (ok, sz, w)) :
    Loading (s.fs.inode i) (s.fs.inode i).phnum (s.fs.inode i).phoff 0 u ok sz w :=
  loadSegments_loading new.filled (by decide) new.guarded loaded

theorem NewDir.plan (new : NewDir s u)
    (loaded : loadSegments (s.fs.inode i) (s.fs.inode i).phnum (s.fs.inode i).phoff 0 u =
      .ok (ok, sz, w)) :
    ((s.fs.inode i).plan s.kmem.freelist.length).2 = if ok then some (sz, w.acct) else none := by
  unfold Inode.plan
  rw [← new.acct]
  exact (new.loaded loaded).plan

theorem loadsImage_iff (opens : Opens s path i u)
    (new : NewDir s u)
    (loaded : loadSegments (s.fs.inode i) (s.fs.inode i).phnum (s.fs.inode i).phoff 0 u =
      .ok (ok, sz, w))
    (x : Nat) : LoadsImage s path x ↔ ok = true ∧ x = sz := by
  have plan := new.plan loaded
  constructor
  · rintro ⟨j, A, found, -, -, result⟩
    rw [opens.1] at found
    cases found
    rw [plan] at result
    cases ok with
    | false => cases result
    | true =>
      cases result
      exact ⟨rfl, rfl⟩
  · rintro ⟨rfl, rfl⟩
    exact ⟨i, w.acct, opens.1, opens.2.1, new.room, plan⟩

theorem unchanged_iff {k : Kmem} {sstack : Nat}
    (kept : ∀ v e, v < UPAGES → s.entry v = some e → k.mem e.pa = s.kmem.mem e.pa) :
    Unchanged s { s with proc := { s.proc with sstack := sstack }, kmem := k } ↔
      sstack = s.proc.sstack := by
  constructor
  · intro h
    exact congrArg Proc.sstack h.proc
  · rintro rfl
    exact ⟨rfl, kept, rfl⟩

end Atomic

theorem imagePgdir_pages {v : Nat} {e : Pte} (user : v < UPAGES)
    (there : imagePgdir.entry v = some e) : e.pa = 0x300 ∨ e.pa = 0x309 := by
  by_cases other : v ≠ 0 ∧ v ≠ 9
  · cases (imagePgdir_user user other).symm.trans there
  · obtain rfl | rfl : v = 0 ∨ v = 9 := by omega
    · cases (show imagePgdir.entry 0 = some (userPte 0x300) from rfl).symm.trans there
      exact .inl rfl
    · cases (show imagePgdir.entry 9 = some (userPte 0x309) from rfl).symm.trans there
      exact .inr rfl

theorem imagePgdir_valid {d : PgDir} {k : Kmem} (page : d.page = imagePgdir.page)
    (tab : d.tab = imagePgdir.tab)
    (pages : ∀ {v e}, v < UPAGES → d.entry v = some e → e.pa = 0x300 ∨ e.pa = 0x309)
    (kend : k.kend = 0x115) (free : ∀ x ∈ k.freelist, 0x115 ≤ x ∧ x < PHYSTOP / PGSIZE) :
    Uvm.Valid ⟨d, k⟩ := by
  refine ⟨by rw [kend]; decide, fun x pos => ?_⟩
  rw [kend]
  rcases Uvm.mem_of_count pos with mem | rfl | ⟨i, index, table⟩ | ⟨v, user, e, there, rfl⟩
  · exact free x mem
  · rw [page]
    decide
  · rw [tab] at table
    unfold imagePgdir at table
    dsimp only at table
    split at table
    · cases table
      simp only [NPDENTRIES, PHYSTOP, PGSIZE] at index ⊢
      omega
    · cases table
  · have page := pages user there
    simp only [PHYSTOP, PGSIZE]
    omega

theorem loader_valid : loader.uvm.Valid :=
  imagePgdir_valid rfl rfl imagePgdir_pages rfl loader_legal.page

theorem loader_standing (sstack : Nat) : Standing (loaderAt sstack) := by
  refine ⟨fun v e user there mem => ?_, show loader.kmem.kdata.1 % PGSIZE = 0 by decide⟩
  have page := imagePgdir_pages user there
  have := List.mem_range'_1.mp mem
  omega

end MmapXv6
