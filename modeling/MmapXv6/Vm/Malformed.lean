import MmapXv6.Vm.Confined

/-! Whether exec returns. What loaduvm demands of a segment it enforces by a panic: that
the segment starts a page and that each of its pages has a page table. The arguments are
copied to the new stack, and uva2ka reads through the page table of an address without a
test that it is there. -/
namespace MmapXv6

open Lib (bind_ok word)

/-- copyout by numbers, from the page tables and the pages that are the user's: none where
it reads through a table that is not there, and else whether it succeeds. -/
def copyPlan (has there : Nat → Bool) : Nat → Nat → Nat → Option Bool
  | 0, _, _ => none
  | n + 1, va, len =>
    if len = 0 then some true
    else if has (PDX va) = false then none
    else if there (va / PGSIZE) = false then some false
    else copyPlan has there n ((PGROUNDDOWN va + PGSIZE) % 2 ^ 32)
      (len - if len < PGSIZE - va % PGSIZE then len else PGSIZE - va % PGSIZE)

def pushPlan (has there : Nat → Bool) : List Nat → Nat → Nat → Option (Bool × Nat)
  | [], _, sp => some (true, sp)
  | len :: rest, argc, sp =>
    if MAXARG ≤ argc then some (false, sp)
    else
      let sp := (sp + 2 ^ 32 - (len + 1)) % 2 ^ 32 / 4 * 4
      match copyPlan has there (NPAGES + 2) sp (len + 1) with
      | none => none
      | some false => some (false, sp)
      | some true => pushPlan has there rest (argc + 1) sp

def argsSafe (has there : Nat → Bool) (lens : List Nat) (sz : Nat) : Bool :=
  match pushPlan has there lens 0 sz with
  | none => false
  | some (false, _) => true
  | some (true, sp) => (copyPlan has there (NPAGES + 2)
      ((sp + 2 ^ 32 - (3 + lens.length + 1) * 4) % 2 ^ 32) ((3 + lens.length + 1) * 4)).isSome

def imagePage (sz v : Nat) : Bool := decide (v * PGSIZE < sz) || decide (v = stackPage sz / PGSIZE)

/-- Each segment that exec comes to is safe, and so are the arguments if exec comes to
them. -/
def Wellformed (s : Vm) (path : Path) (argv : List (List UInt8)) : Prop :=
  ∀ i, path.ip = some i → (s.fs.inode i).isElf → KVMPAGES ≤ s.kmem.freelist.length →
    eachSegment (s.fs.inode i).safe (s.fs.inode i) (s.fs.inode i).phnum (s.fs.inode i).phoff 0
      ⟨kernelTab, s.kmem.freelist.length - KVMPAGES⟩ ∧
    ∀ sz A, ((s.fs.inode i).plan s.kmem.freelist.length).2 = some (sz, A) →
      ∀ top B, A.allocuvm (stackPage sz) ((stackPage sz + PGSIZE) % 2 ^ 32) = some (top, B) →
        top ≠ 0 → argsSafe B.has (imagePage sz) (argv.map List.length) top = true

section Load
variable {k : Kmem} {u w : Uvm} {ip : Inode} {n off sz sz' : Nat}

theorem loadSegments_returns (plain : ip.type ≠ .dev) (image : Image k u sz) :
    (∃ r, loadSegments ip n off sz u = .ok r) ↔ eachSegment ip.safe ip n off sz u.acct := by
  have ok : ∀ {p : Prop} {r : Bool × Nat × Uvm}, p →
      ((∃ q, (.ok r : Except Panic _) = .ok q) ↔ p) :=
    fun holds => ⟨fun _ => holds, fun _ => ⟨_, rfl⟩⟩
  induction n generalizing off sz u with
  | zero => exact ok trivial
  | succ n ih =>
    unfold loadSegments
    cases image.pass plain n off with
    | stop r each _ loads => rw [loads]; exact ok (each _)
    | skip each _ loads => rw [loads, each]; exact ih image
    | load ph size v image' word each _ pass =>
      have returns := loaduvm_returns plain (by decide) image'.bare word.1 word.2 size
      have loads := loaduvm_loads plain (by decide) image'.bare word.1 word.2
      rw [pass, each, ← returns, ← loads]
      change (∃ r, (loaduvm v _ ip _ _ >>= _) = .ok r) ↔ _
      cases done : loaduvm v ph.vaddr ip ph.off ph.filesz with
      | error p =>
        exact iff_of_false (by rintro ⟨r, eq⟩; cases eq) (by rintro ⟨⟨r, x, eq⟩, -⟩; cases eq)
      | ok p =>
        obtain ⟨q, w⟩ := p
        rw [Lib.ok_bind]
        by_cases failed : q < 0
        · rw [if_pos failed]
          refine ok ⟨⟨q, w, rfl⟩, ?_⟩
          rintro ⟨q', w', run, served'⟩
          cases run
          exact absurd failed served'
        · rw [if_neg failed]
          refine (ih (image'.loaded done)).trans ?_
          rw [loaduvm_acct done]
          exact ⟨fun h => ⟨⟨q, w, rfl⟩, fun _ => h⟩, fun h => h.2 ⟨q, w, rfl, failed⟩⟩

theorem loadSegments_crooked {size : Nat} {B : Acct} (plain : ip.type ≠ .dev) (image : Image k u sz)
    (able : loadable ip off) (plan : u.acct.allocuvm sz (ip.header off).end_ = some (size, B))
    (served : size ≠ 0) (crooked : (ip.header off).vaddr % PGSIZE ≠ 0) :
    loadSegments ip (n + 1) off sz u = .error .loaduvmAligned := by
  obtain ⟨r, b, read⟩ := readi_plain plain off PROGHDRSIZE
  have whole := (readi_reads read).mpr able.1
  obtain ⟨size', v, grown⟩ := image.allocates (ip.header off).end_
  have acct := allocuvm_acct grown
  rw [plan] at acct
  obtain ⟨rfl, rfl⟩ := acct
  rw [loadSegments, loadSegmentsWith, read, Lib.ok_bind]
  dsimp only
  rw [if_neg (not_not.mpr whole), readi_header read whole, if_neg (not_not.mpr able.2.1),
    if_neg (Nat.not_lt.mpr able.2.2),
    show ((ip.header off).vaddr + (ip.header off).memsz) % 2 ^ 32 = (ip.header off).end_ from rfl,
    grown, Lib.ok_bind]
  rw [if_neg served, loaduvmWith, if_pos crooked]
  rfl

theorem Image.segments {ok : Bool} (image : Image k u sz)
    (done : loadSegments ip n off sz u = .ok (ok, sz', w)) :
    w.Valid ∧ (∀ x, w.count x ≤ k.freelist.count x) ∧ w.kmem.kend = u.kmem.kend ∧
      (ok = true → Image k w sz') := by
  induction n generalizing off sz u with
  | zero =>
    cases done
    exact ⟨image.valid, image.pages, rfl, fun _ => image⟩
  | succ n ih =>
    cases loadSegments_segment done with
    | unread | wrong => exact ⟨image.valid, image.pages, rfl, nofun⟩
    | skip _ _ rest => exact ih image rest
    | full _ grown =>
      have moves : Moves _ False u w := allocuvm_moves grown
      exact ⟨moves.valid image.valid, fun x => (moves.count_le x).trans (image.pages x),
        moves.fixed.1, nofun⟩
    | @short v w _ _ able grown served loaded _ =>
      have moves : Moves _ False u v := allocuvm_moves grown
      have image' := (image.grown grown served).loaded loaded
      have later : Moves True True v w := (loaduvm_moves 0 (.inl trivial) loaded).1
      exact ⟨image'.valid, image'.pages, later.fixed.1.trans moves.fixed.1, nofun⟩
    | @next v x _ _ _ _ _ able grown served loaded _ rest =>
      have moves : Moves _ False u v := allocuvm_moves grown
      have later : Moves True True v x := (loaduvm_moves 0 (.inl trivial) loaded).1
      obtain ⟨valid, pages, kend, next⟩ := ih ((image.grown grown served).loaded loaded) rest
      exact ⟨valid, pages, kend.trans (later.fixed.1.trans moves.fixed.1), next⟩

end Load

section Args
variable {k : Kmem} {u w : Uvm} {there : Nat → Bool}

def PgDir.Shows (d : PgDir) (there : Nat → Bool) : Prop :=
  ∀ v, d.has (v / NPTENTRIES) = true → (there v = true ↔ ∃ e, d.entry v = some e ∧ e.user = true)

theorem uva2ka_absent {d : PgDir} {va : Nat} (table : d.has (PDX va) = false) :
    uva2ka d va = .error .nullPte := by
  unfold uva2ka
  rw [if_pos]
  unfold PgDir.has at table
  rw [← Option.not_isSome, table]
  rfl

theorem uva2ka_shows {d : PgDir} {va : Nat} (shows : d.Shows there)
    (table : d.has (PDX va) = true) :
    ∃ r, uva2ka d va = .ok r ∧ (there (va / PGSIZE) = true ↔ r.isSome) := by
  have same := d.entry_of_table (v := va / PGSIZE) table
  have iff := shows (va / PGSIZE) table
  unfold uva2ka
  rw [if_neg (by rw [← Option.not_isSome, show (d.tab (PDX va)).isSome = true from table]; decide),
    ← same]
  cases entry : d.entry (va / PGSIZE) with
  | none =>
    refine ⟨none, rfl, iff.trans ⟨?_, nofun⟩⟩
    rintro ⟨e, some, -⟩
    rw [entry] at some
    cases some
  | some e =>
    refine ⟨_, rfl, iff.trans ?_⟩
    rw [entry]
    cases user : e.user <;> simp [user]

inductive CopyEnds (run : Except Panic (Int × Uvm)) : Option Bool → Prop where
  | wild {p : Panic} : run = .error p → CopyEnds run none
  | part {w : Uvm} : run = .ok (-1, w) → CopyEnds run (some false)
  | whole {w : Uvm} : run = .ok (0, w) → CopyEnds run (some true)

theorem copyoutLoop_copied {p : Lib.Bytes} {n va at_ len : Nat} (shows : u.pgdir.Shows there) :
    CopyEnds (copyoutLoop p n u va at_ len) (copyPlan u.pgdir.has there n va len) := by
  induction n generalizing u va at_ len with
  | zero => exact .wild rfl
  | succ n ih =>
    rw [copyoutLoop, copyPlan]
    by_cases done : len = 0
    · rw [if_pos done, if_pos done]
      exact .whole rfl
    have dir : PDX (PGROUNDDOWN va) = PDX va := by
      unfold PDX PGROUNDDOWN
      simp only [PGSIZE, NPTENTRIES]
      omega
    rw [if_neg done, if_neg done]
    by_cases table : u.pgdir.has (PDX va) = false
    · rw [if_pos table, uva2ka_absent (by rw [dir]; exact table)]
      exact .wild rfl
    · rw [if_neg table]
      obtain ⟨r, looked, iff⟩ := uva2ka_shows shows (by rw [dir]; exact Bool.of_not_eq_false table)
      rw [page_rounddown] at iff
      rw [looked, Lib.ok_bind]
      cases r with
      | none =>
        rw [if_pos (Bool.eq_false_iff.mpr fun yes => by cases iff.mp yes)]
        exact .part rfl
      | some pa =>
        rw [if_neg (by rw [iff.mpr rfl]; decide)]
        exact ih shows

inductive PushEnds (u : Uvm) (argc : Nat) (run : Except Panic (Bool × Nat × List Nat × Uvm)) :
    Option (Bool × Nat) → Prop where
  | wild {p : Panic} : run = .error p → PushEnds u argc run none
  | done {ok : Bool} {sp : Nat} {ustack : List Nat} {w : Uvm} : run = .ok (ok, sp, ustack, w) →
      w.pgdir = u.pgdir → (ok = true → ustack.length = argc) → PushEnds u argc run (some (ok, sp))

theorem pushArgs_pushed {argv : List (List UInt8)} {argc sp : Nat} {ustack : List Nat}
    (shows : u.pgdir.Shows there) : PushEnds u (ustack.length + argv.length)
      (pushArgs argv argc sp ustack u)
      (pushPlan u.pgdir.has there (argv.map List.length) argc sp) := by
  induction argv generalizing argc sp ustack u with
  | nil => exact .done rfl rfl fun _ => rfl
  | cons arg rest ih =>
    rw [pushArgs, List.map_cons, pushPlan]
    by_cases many : MAXARG ≤ argc
    · rw [if_pos many, if_pos many]
      exact .done rfl rfl fun no => by cases no
    · rw [if_neg many, if_neg many]
      dsimp only
      unfold copyout
      rw [show arg.length + 1 = (arg ++ [0]).length by simp]
      generalize (sp + 2 ^ 32 - (arg ++ [0]).length) % 2 ^ 32 / 4 * 4 = sp'
      have copied : CopyEnds (copyoutLoop (fun j => (arg ++ [0]).getD j 0) (NPAGES + 2) u sp' 0
        (arg ++ [0]).length) _ := copyoutLoop_copied shows
      generalize copyPlan _ _ _ _ _ = plan at copied ⊢
      cases copied with
      | wild run =>
        rw [run]
        exact .wild rfl
      | part run =>
        rw [run, Lib.ok_bind]
        exact .done rfl (copyoutLoop_pgdir run) fun no => by cases no
      | @whole x run =>
        have pgdir := copyoutLoop_pgdir run
        rw [run, Lib.ok_bind, ← pgdir]
        have later : PushEnds x _ (pushArgs rest (argc + 1) sp' (ustack ++ [sp']) x) _ :=
          ih (by rw [pgdir]; exact shows)
        dsimp only
        rw [if_neg (by decide)]
        generalize pushPlan _ _ _ _ _ = plan at later ⊢
        cases later with
        | wild run => exact .wild run
        | done run same count =>
          refine .done run (same.trans pgdir) fun yes => ?_
          rw [count yes, List.length_append, List.length_singleton, List.length_cons]
          omega

theorem wordsBytes_length (ws : List Nat) : (wordsBytes ws).length = ws.length * 4 := by
  unfold wordsBytes
  induction ws with
  | nil => rfl
  | cons w ws ih =>
    rw [List.flatMap_cons, List.length_append, ih, List.length_cons]
    simp [wordBytes]
    omega

theorem Moves.old_valid {d : PgDir} {leak stray : Prop} (moves : Moves leak stray u w)
    (valid : u.Valid) (old : ∀ x, 0 < d.count x → u.kmem.kend ≤ x ∧ x < PHYSTOP / PGSIZE) :
      (⟨d, w.kmem⟩ : Uvm).Valid := by
  have valid' := moves.valid valid
  refine ⟨valid'.zero, fun x pos => ?_⟩
  by_cases free : x ∈ w.kmem.freelist
  · exact valid'.page x (Uvm.count_free free)
  · rw [moves.fixed.1]
    refine old x ?_
    unfold Uvm.count at pos
    rw [List.count_eq_zero_of_not_mem free, Nat.add_zero] at pos
    exact pos

theorem execBad_returns {s : Vm} (valid : u.Valid) : ∃ r, execBad s u = .ok r := by
  obtain ⟨k, freed⟩ := freevm_returns valid
  exact ⟨_, by unfold execBad; rw [freed]; rfl⟩

theorem execArgs_returns {s : Vm} {name : List UInt8} {entry sz : Nat} {argv : List (List UInt8)}
    (shows : u.pgdir.Shows there) (valid : u.Valid)
    (old : ∀ x, 0 < s.proc.pgdir.count x → u.kmem.kend ≤ x ∧ x < PHYSTOP / PGSIZE) :
    (∃ r, execArgs s name entry u sz argv = .ok r) ↔
      argsSafe u.pgdir.has there (argv.map List.length) sz = true := by
  have pushed : PushEnds u _ (pushArgs argv 0 sz [] u) _ := pushArgs_pushed shows
  unfold execArgs argsSafe
  generalize pushPlan _ _ _ _ _ = plan at pushed ⊢
  cases pushed with
  | wild run =>
    rw [run]
    exact iff_of_false (by rintro ⟨r, eq⟩; cases eq) Bool.false_ne_true
  | @done ok sp ustack v run pgdir count =>
    have first : Moves False True u v := (pushArgs_moves (.inl trivial) run).1
    have valid' := first.valid valid
    rw [run, Lib.ok_bind]
    cases ok with
    | false => exact ⟨fun _ => rfl, fun _ => execBad_returns valid'⟩
    | true =>
      have argc : ustack.length = argv.length := by simpa using count rfl
      dsimp only
      rw [if_pos rfl, List.length_map, argc]
      generalize words :
        ([0xffffffff, argv.length, (sp + 2 ^ 32 - (argv.length + 1) * 4) % 2 ^ 32] ++
        ustack ++ [0] : List Nat) = ws
      have length : (wordsBytes ws).length = (3 + argv.length + 1) * 4 := by
        rw [wordsBytes_length, ← words]
        simp [argc]
        omega
      have copied : CopyEnds (copyout v ((sp + 2 ^ 32 - (3 + argv.length + 1) * 4) % 2 ^ 32)
        (wordsBytes ws)) _ :=
          copyoutLoop_copied (show v.pgdir.Shows there by rw [pgdir]; exact shows)
      rw [length, pgdir] at copied
      generalize copyPlan _ _ _ _ _ = plan at copied ⊢
      cases copied with
      | wild run =>
        rw [run]
        exact iff_of_false (by rintro ⟨r, eq⟩; cases eq) Bool.false_ne_true
      | part run =>
        have moves : Moves False True v _ := (copyoutLoop_moves (.inl trivial) run).1
        rw [run, Lib.ok_bind]
        exact ⟨fun _ => rfl, fun _ => execBad_returns (moves.valid valid')⟩
      | @whole w run =>
        have moves : Moves False True v w := (copyoutLoop_moves (.inl trivial) run).1
        have both : Moves False True u w := first.trans moves
        obtain ⟨k, freed⟩ := freevm_returns (both.old_valid valid old)
        rw [run, Lib.ok_bind]
        dsimp only
        rw [if_neg (by decide), freed]
        exact ⟨fun _ => rfl, fun _ => ⟨_, rfl⟩⟩

end Args

section Stack
variable {k : Kmem} {u w : Uvm} {sz top : Nat}

theorem allocuvmLoop_stop {n a oldsz newsz r : Nat} (above : newsz ≤ a)
    (done : allocuvmLoop n u a oldsz newsz = .ok (r, w)) : w = u := by
  cases n with
  | zero => cases done
  | succ n =>
    rw [allocuvmLoop, if_neg (Nat.not_lt.mpr above)] at done
    cases done
    rfl

theorem Image.stack_shows (image : Image k u sz)
    (done : allocuvm u (stackPage sz) ((stackPage sz + PGSIZE) % 2 ^ 32) = .ok (top, w))
    (served : top ≠ 0) : w.pgdir.Shows (imagePage sz) := by
  have users := allocuvm_users image.users done
  have guarded := allocuvm_guarded image.guarded done
  obtain ⟨start, end_⟩ := stackPage_eq image.small
  have small := image.small
  have aligned : stackPage sz % PGSIZE = 0 := PGROUNDUP_mod _
  rw [end_, show PGROUNDUP sz + 9 * PGSIZE = stackPage sz + PGSIZE by rw [start]; omega] at done
  unfold imagePage
  generalize stackPage sz = a at *
  have low : a + PGSIZE < KERNBASE := by
    by_contra high
    unfold allocuvm at done
    rw [if_pos (by omega)] at done
    cases done
    exact served rfl
  -- one page is taken, and it misses only together with its page table
  have entry : (∀ v, v ≠ a / PGSIZE → w.pgdir.entry v = u.pgdir.entry v) ∧
      ((w.pgdir.entry (a / PGSIZE)).isSome ∨ w.pgdir.has (PDX a) = false) ∧
        u.kmem.freelist ≠ [] := by
    unfold allocuvm at done
    rw [if_neg (by omega), if_neg (by omega), PGROUNDUP_aligned aligned (by omega), allocuvmLoop,
      if_pos (by simp only [PGSIZE]; omega)] at done
    split at done
    · obtain ⟨⟨x, v⟩, -, eq⟩ := bind_ok.mp done
      cases eq
      exact absurd rfl served
    · rename_i mem k' taken
      have hands := kalloc_hands taken fun _ => 0
      have more : u.kmem.freelist ≠ [] := by
        rw [(kalloc_some taken).1]
        exact List.cons_ne_nil _ _
      obtain ⟨⟨q, v⟩, mapped, rest⟩ := bind_ok.mp done
      rw [Nat.mod_eq_of_lt (by simp only [PGSIZE, KERNBASE] at low ⊢; omega)] at rest
      obtain rfl : w = v := allocuvmLoop_stop (Nat.le_refl _) rest
      cases mappages_maps (e := userPte mem) aligned (by omega) hands mapped with
      | done _ _ _ _ here others => exact ⟨others, .inl here, more⟩
      | none eq _ absent =>
        subst eq
        refine ⟨fun _ _ => rfl, .inr ?_, more⟩
        unfold PgDir.has
        rw [absent]
        rfl
  obtain ⟨others, here, more⟩ := entry
  intro v table
  rw [Bool.or_eq_true, decide_eq_true_iff, decide_eq_true_iff]
  by_cases user : v < UPAGES
  · by_cases at_ : v = a / PGSIZE
    · rcases here with there | absent
      · obtain ⟨e, there⟩ := Option.isSome_iff_exists.mp there
        rw [← at_] at there
        exact iff_of_true (.inr at_) ⟨e, there, users v user e there⟩
      · rw [at_] at table
        rw [show w.pgdir.has (PDX a) = true from table] at absent
        cases absent
    · rw [others v at_]
      by_cases below : v * PGSIZE < sz
      · obtain ⟨e, there⟩ := Option.isSome_iff_exists.mp (image.filled.all more below)
        exact iff_of_true (.inl below) ⟨e, there, image.users v user e there⟩
      · rw [image.below v user (Nat.not_lt.mp below)]
        exact iff_of_false (fun either => either.elim below at_) (by rintro ⟨e, eq, -⟩; cases eq)
  · refine iff_of_false (fun either => ?_) ?_
    · simp only [UPAGES, KERNBASE, PGSIZE] at user small low either
      omega
    · rintro ⟨e, there, yes⟩
      rw [guarded v (Nat.not_lt.mp user) e there] at yes
      cases yes

theorem Image.stack (image : Image k u sz)
    (done : allocuvm u (stackPage sz) ((stackPage sz + PGSIZE) % 2 ^ 32) = .ok (top, w)) :
    w.Valid ∧ w.kmem.kend = u.kmem.kend := by
  have moves : Moves _ False u w := allocuvm_moves done
  exact ⟨moves.valid image.valid, moves.fixed.1⟩

end Stack

section Exec
variable {s : Vm} {path : Path} {argv : List (List UInt8)}

theorem execStack_returns {k : Kmem} {u : Uvm} {sz entry : Nat} {name : List UInt8}
    (image : Image k u sz)
    (old : ∀ x, 0 < s.proc.pgdir.count x → u.kmem.kend ≤ x ∧ x < PHYSTOP / PGSIZE) :
    (∃ r, execStack s name entry u sz argv = .ok r) ↔ ∀ top B,
      u.acct.allocuvm (stackPage sz) ((stackPage sz + PGSIZE) % 2 ^ 32) = some (top, B) → top ≠ 0 →
        argsSafe B.has (imagePage sz) (argv.map List.length) top = true := by
  have below : Below u.pgdir (stackPage sz) := by
    refine image.below.mono ?_
    have := (stackPage_eq image.small).1
    have small := image.small
    unfold PGROUNDUP at this
    simp only [KERNBASE, PGSIZE] at small this
    omega
  obtain ⟨top, w, grown⟩ := allocuvm_total image.valid below ((stackPage sz + PGSIZE) % 2 ^ 32)
  obtain ⟨valid, kend⟩ := image.stack grown
  unfold execStack
  change (∃ r, (allocuvm u (stackPage sz) ((stackPage sz + PGSIZE) % 2 ^ 32) >>= _) = .ok r) ↔ _
  rw [grown, Lib.ok_bind]
  dsimp only
  by_cases served : top = 0
  · subst served
    rw [if_pos rfl]
    refine iff_of_true (execBad_returns valid) fun size B plan some => ?_
    exact absurd (allocuvm_full grown size B plan) some
  · have plan := allocuvm_plan grown served
    rw [if_neg served, plan]
    refine (execArgs_returns (image.stack_shows grown served) valid (by rw [kend]; exact old)).trans
      ⟨fun safe size B eq _ => ?_, fun safe => safe top w.acct rfl served⟩
    cases eq
    exact safe

theorem exec_result {t : Vm} {r : Int} (done : exec s path argv = .ok (r, t)) : r = 0 ∨ r = -1 := by
  cases exec_end done with
  | file | kvm | load | stack => exact .inr rfl
  | args _ _ _ _ ended =>
    cases ended with
    | bad => exact .inr rfl
    | commit => exact .inl rfl

theorem exec_opens {i : Fin NINODE} {u : Uvm} (argv : List (List UInt8))
    (plain : (s.fs.inode i).type ≠ .dev) (opens : Opens s path i u) :
    ∃ entry, ∀ put, execWith put s path argv =
      loadSegmentsWith put (s.fs.inode i) (s.fs.inode i).phnum (s.fs.inode i).phoff 0 u >>= fun q =>
        if q.1 then execStack s path.last entry q.2.2 q.2.1 argv else execBad s q.2.2 := by
  obtain ⟨found, elf, setup⟩ := opens
  obtain ⟨r, b, read⟩ := readi_plain plain 0 ELFHDRSIZE
  obtain ⟨rfl, short⟩ := readi_elf read
  refine ⟨word (s.fs.inode i).data 24, fun put => ?_⟩
  unfold execWith
  rw [found]
  dsimp only
  rw [read, Lib.ok_bind]
  rw [if_neg, setup, Lib.ok_bind, Fs.iput_iget]
  · rfl
  · rintro (less | magic)
    · exact absurd elf.1 (Nat.not_le.mpr (short.mp less))
    · exact magic elf.2

theorem exec_closed (data : s.kmem.kdata.1 % PGSIZE = 0)
    (plain : ∀ i, path.ip = some i → (s.fs.inode i).type ≠ .dev)
    (closed : ∀ i u, ¬Opens s path i u) : ∃ r, ∀ put, execWith put s path argv = .ok r := by
  unfold execWith
  split
  · exact ⟨_, fun _ => rfl⟩
  · rename_i i found
    obtain ⟨r, b, read⟩ := readi_plain (plain i found) 0 ELFHDRSIZE
    obtain ⟨rfl, short⟩ := readi_elf read
    simp only [read, Lib.ok_bind]
    by_cases bad : r < ELFHDRSIZE ∨ word (s.fs.inode i).data 0 ≠ ELFMAGIC
    · exact ⟨_, fun _ => if_pos bad⟩
    · obtain ⟨d, k, setup, -⟩ := setupkvm_made data
      simp only [if_neg bad, setup, Lib.ok_bind]
      push Not at bad
      cases d with
      | none => exact ⟨_, fun _ => rfl⟩
      | some d =>
        refine absurd ⟨found, ⟨?_, bad.2⟩, setup⟩ (closed i ⟨d, k⟩)
        exact Nat.not_lt.mp fun less => absurd (short.mpr less) (not_lt.mpr bad.1)

theorem exec_returns_opens {i : Fin NINODE} {u : Uvm} (legal : s.kmem.Legal) (valid : s.uvm.Valid)
    (plain : (s.fs.inode i).type ≠ .dev) (opens : Opens s path i u) :
    (∃ r, exec s path argv = .ok r) ↔
      eachSegment (s.fs.inode i).safe (s.fs.inode i) (s.fs.inode i).phnum (s.fs.inode i).phoff 0
        ⟨kernelTab, s.kmem.freelist.length - KVMPAGES⟩ ∧
      ∀ sz A, ((s.fs.inode i).plan s.kmem.freelist.length).2 = some (sz, A) →
        ∀ top B, A.allocuvm (stackPage sz) ((stackPage sz + PGSIZE) % 2 ^ 32) = some (top, B) →
          top ≠ 0 → argsSafe B.has (imagePage sz) (argv.map List.length) top = true := by
  have new := opens.newDir legal.data
  have image : Image s.kmem u 0 := .start legal opens.2.2
  have kend : u.kmem.kend = s.kmem.kend := by
    cases setupkvm_kvmMade legal.data opens.2.2 with
    | some _ _ _ _ _ same _ _ => exact same
  obtain ⟨entry, run⟩ := exec_opens argv plain opens
  rw [exec, run, ← new.acct, ← loadSegments_returns plain image, ← loadSegments]
  cases loaded : loadSegments (s.fs.inode i) (s.fs.inode i).phnum (s.fs.inode i).phoff 0 u with
  | error p => exact iff_of_false (by rintro ⟨r, eq⟩; cases eq) (by rintro ⟨⟨r, eq⟩, -⟩; cases eq)
  | ok q =>
    obtain ⟨ok, sz, w⟩ := q
    obtain ⟨valid', -, same, next⟩ := image.segments loaded
    have plan := new.plan loaded
    rw [Lib.ok_bind]
    cases ok with
    | false =>
      refine iff_of_true (execBad_returns valid') ⟨⟨_, rfl⟩, fun sz A eq => ?_⟩
      rw [plan] at eq
      cases eq
    | true =>
      have old : ∀ x, 0 < s.proc.pgdir.count x → w.kmem.kend ≤ x ∧ x < PHYSTOP / PGSIZE := by
        intro x pos
        rw [same, kend]
        refine valid.page x ?_
        exact Nat.add_pos_left pos _
      rw [if_pos rfl, plan, execStack_returns (next rfl) old]
      refine ⟨fun safe => ⟨⟨_, rfl⟩, fun size A eq => ?_⟩, fun both => both.2 sz w.acct rfl⟩
      cases eq
      exact safe

/-- exec returns if and only if each segment that it comes to starts a page and has the
page tables that loaduvm walks, and the arguments go where page tables are. A store outside
the image could change a page table, so this is about files without one. -/
theorem exec_returns (legal : s.kmem.Legal) (valid : s.uvm.Valid)
    (plain : ∀ i, path.ip = some i → (s.fs.inode i).type ≠ .dev) (_ : StaysInside s path) :
    (∃ r t, exec s path argv = .ok (r, t) ∧ (r = 0 ∨ r = -1)) ↔ Wellformed s path argv := by
  have result : (∃ r t, exec s path argv = .ok (r, t) ∧ (r = 0 ∨ r = -1)) ↔
      ∃ q, exec s path argv = .ok q := by
    constructor
    · rintro ⟨r, t, run, -⟩
      exact ⟨_, run⟩
    · rintro ⟨⟨r, t⟩, run⟩
      exact ⟨r, t, run, exec_result run⟩
  rw [result]
  by_cases opened : ∃ i u, Opens s path i u
  · obtain ⟨i, u, opens⟩ := opened
    rw [exec_returns_opens legal valid (plain i opens.1) opens]
    constructor
    · intro both j found _ _
      cases opens.1.symm.trans found
      exact both
    · exact fun formed => formed i opens.1 opens.2.1 (opens.newDir legal.data).room
  · push Not at opened
    obtain ⟨r, closed⟩ := exec_closed legal.data plain opened
    refine iff_of_true ⟨r, closed _⟩ fun i found elf room => ?_
    obtain ⟨u, opens⟩ := opens_of_room legal found elf room
    exact absurd opens (opened i u)

end Exec

theorem small_wellformed : Wellformed (running smallProgram) programPath [] := by
  intro i found _ _
  cases found
  refine ⟨(eachSegment_load (n := 0) ⟨by decide, by decide, by decide⟩ small_plan (by decide)).mpr
    ⟨⟨by decide, fun j less _ => ?_⟩, fun _ => trivial⟩, fun sz A planned top B grown _ => ?_⟩
  · have first : pagesTo 0 (smallProgram.header 52).filesz = 1 := by decide
    obtain rfl : j = 0 := by omega
    decide
  · have plan : (loadPlan smallProgram 1 52 0 ⟨kernelTab, 15⟩).2 =
        some (4096, ⟨firstTabs, 13⟩) := by
      rw [loadPlan, if_neg (by decide), if_neg (by decide), if_neg (by decide), small_plan]
      rfl
    cases plan.symm.trans planned
    have stack : Acct.allocuvm ⟨firstTabs, 13⟩ 0x9000 0xA000 =
        some (0xA000, ⟨Function.update firstTabs 0 true, 12⟩) := by
      have one : pagesTo (PGROUNDUP 0x9000) 0xA000 = 1 := by decide
      rw [Acct.allocuvm, if_neg (by decide), if_neg (by decide), one]
      rfl
    cases stack.symm.trans grown
    decide

/-- The program of one page is started or refused. -/
theorem exec_returns_small :
    ∃ r t, exec (running smallProgram) programPath [] = .ok (r, t) ∧ (r = 0 ∨ r = -1) :=
  (exec_returns (s := running smallProgram) loader_legal loader_valid
    (fun _ _ => show smallProgram.type ≠ .dev by decide) small_inside).mpr small_wellformed

def crookedProgram : Inode := elfFile [[1, 0, 1, 0, 0, 4095, 0, 0]]

/-- exec of such a file panics the kernel. -/
theorem malformed_panics :
    exec (running crookedProgram) programPath [] = .error .loaduvmAligned := by
  have legal : (running crookedProgram).kmem.Legal := loader_legal
  have plain : crookedProgram.type ≠ .dev := by decide
  obtain ⟨u, opens⟩ := opens_of_room (i := 0) legal (show programPath.ip = some 0 from rfl)
    ⟨by decide, by decide⟩ (by decide)
  have image : Image _ u 0 := .start legal opens.2.2
  have plan : u.acct.allocuvm 0 (crookedProgram.header 52).end_ = some (4096, ⟨firstTabs, 13⟩) := by
    rw [(opens.newDir legal.data).acct, show (crookedProgram.header 52).end_ = 4096 by decide]
    exact allocuvm_first
  obtain ⟨entry, run⟩ := exec_opens [] plain opens
  rw [exec, run]
  have load : loadSegments crookedProgram 1 52 0 u = .error .loaduvmAligned :=
    loadSegments_crooked plain image ⟨by decide, by decide, by decide⟩ plan (by decide) (by decide)
  change (loadSegments crookedProgram 1 52 0 u >>= _) = _
  rw [load]
  rfl

end MmapXv6
