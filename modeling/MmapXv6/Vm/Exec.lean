import MmapXv6.Vm.Space
import MmapXv6.Vm.Range

/-! The address space that exec.c builds: the segments of the program file, the stack
window of MAXSTACKPAGES pages of which only the last is allocated, and the argument
strings. Everything up to the commit works on a new page directory, except for the
field sstack, which is set before exec can still fail. -/
namespace MmapXv6

open Lib (bind_ok word)

variable {ip : Inode} {n sz : Nat} {r : Int} {s t : Vm} {u u' : Uvm}

structure Proghdr where
  type : Nat
  off : Nat
  vaddr : Nat
  filesz : Nat
  memsz : Nat

abbrev ELFMAGIC : Nat := 0x464C457F
abbrev ELFHDRSIZE : Nat := 52
abbrev PROGHDRSIZE : Nat := 32
abbrev ELFPROGLOAD : Nat := 1

def Proghdr.parse (b : Lib.Bytes) : Proghdr :=
  ⟨word b 0, word b 4, word b 8, word b 16, word b 20⟩

/-- The page of a PTE_ADDR that is taken without a look at PTE_P. -/
def pteAddr : Option Pte → Nat
  | none => 0
  | some e => e.pa

def Uvm.put (u : Uvm) (pa : Nat) (r : Int) (bytes : Lib.Bytes) : Uvm :=
  let old := u.kmem.mem pa
  let page : Lib.Bytes := fun j => if (j : Int) < r then bytes j else old j
  { u with kmem := { u.kmem with mem := Function.update u.kmem.mem pa page } }

section Load
variable (put : Uvm → Nat → Int → Lib.Bytes → Uvm)

def loaduvmLoopWith (addr : Nat) (ip : Inode) (offset sz : Nat) :
    Nat → Uvm → Nat → Except Panic (Int × Uvm)
  | 0, _, _ => .error .loops
  | n + 1, u, i =>
    if i < sz then
      let va := (addr + i) % 2 ^ 32
      match walkpgdir u va false with
      | none => .error .loaduvmNoPte
      | some u => do
        let pa := pteAddr (u.pgdir.pte (va / PGSIZE))
        let n1 := if sz - i < PGSIZE then sz - i else PGSIZE
        let (r, bytes) ← readi ip ((offset + i) % 2 ^ 32) n1
        let u := put u pa r bytes
        if r ≠ n1 then .ok (-1, u)
        else loaduvmLoopWith addr ip offset sz n u ((i + PGSIZE) % 2 ^ 32)
    else .ok (0, u)

def loaduvmWith (u : Uvm) (addr : Nat) (ip : Inode) (offset sz : Nat) : Except Panic (Int × Uvm) :=
  if addr % PGSIZE ≠ 0 then .error .loaduvmAligned
  else loaduvmLoopWith put addr ip offset sz (NPAGES + 1) u 0

/-- The segment loop; the flag is false where the source goes to bad. -/
def loadSegmentsWith (ip : Inode) : Nat → Nat → Nat → Uvm → Except Panic (Bool × Nat × Uvm)
  | 0, _, sz, u => .ok (true, sz, u)
  | n + 1, off, sz, u => do
    let (r, b) ← readi ip off PROGHDRSIZE
    let ph := Proghdr.parse b
    let next := (off + PROGHDRSIZE) % 2 ^ 32
    if r ≠ PROGHDRSIZE then .ok (false, sz, u)
    else if ph.type ≠ ELFPROGLOAD then loadSegmentsWith ip n next sz u
    else if ph.memsz < ph.filesz then .ok (false, sz, u)
    else do
      let (sz, u) ← allocuvm u sz ((ph.vaddr + ph.memsz) % 2 ^ 32)
      if sz = 0 then .ok (false, sz, u)
      else do
        let (r, u) ← loaduvmWith put u ph.vaddr ip ph.off ph.filesz
        if r < 0 then .ok (false, sz, u) else loadSegmentsWith ip n next sz u

end Load

def loaduvmLoop := loaduvmLoopWith Uvm.put

def loaduvm := loaduvmWith Uvm.put

def loadSegments := loadSegmentsWith Uvm.put

/-- The result none is the 0 that the source returns for a page that is absent or not
the user's. -/
def uva2ka (d : PgDir) (uva : Nat) : Except Panic (Option Nat) :=
  if (d.tab (PDX uva)).isNone then .error .nullPte
  else match d.pte (uva / PGSIZE) with
    | none => .ok none
    | some e => .ok (if e.user then some e.pa else none)

def copyoutLoop (p : Lib.Bytes) : Nat → Uvm → Nat → Nat → Nat → Except Panic (Int × Uvm)
  | 0, _, _, _, _ => .error .loops
  | n + 1, u, va, done, len =>
    if len = 0 then .ok (0, u)
    else do
      match ← uva2ka u.pgdir (PGROUNDDOWN va) with
      | none => .ok (-1, u)
      | some pa =>
        let at_ := va % PGSIZE
        let n1 := if len < PGSIZE - at_ then len else PGSIZE - at_
        let old := u.kmem.mem pa
        let page : Lib.Bytes := fun j =>
          if at_ ≤ j ∧ j < at_ + n1 then p (done + (j - at_)) else old j
        let u := { u with kmem := { u.kmem with mem := Function.update u.kmem.mem pa page } }
        copyoutLoop p n u ((PGROUNDDOWN va + PGSIZE) % 2 ^ 32) (done + n1) (len - n1)

def copyout (u : Uvm) (va : Nat) (p : List UInt8) : Except Panic (Int × Uvm) :=
  copyoutLoop (fun j => p.getD j 0) (NPAGES + 2) u va 0 p.length

/-- The argument loop: the strings go below sp, each at a multiple of four, and their
addresses are collected in order. -/
def pushArgs : List (List UInt8) → Nat → Nat → List Nat → Uvm →
    Except Panic (Bool × Nat × List Nat × Uvm)
  | [], _, sp, ustack, u => .ok (true, sp, ustack, u)
  | arg :: rest, argc, sp, ustack, u =>
    if MAXARG ≤ argc then .ok (false, sp, ustack, u)
    else do
      let sp := (sp + 2 ^ 32 - (arg.length + 1)) % 2 ^ 32 / 4 * 4
      let (r, u) ← copyout u sp (arg ++ [0])
      if r < 0 then .ok (false, sp, ustack, u)
      else pushArgs rest (argc + 1) sp (ustack ++ [sp]) u

def wordsBytes (ws : List Nat) : List UInt8 := ws.flatMap fun w => (wordBytes 0 w).map Prod.snd

/-- The label bad: the new directory is freed and the process keeps its memory. -/
def execBad (s : Vm) (u : Uvm) : Except Panic (Int × Vm) := do
  let k ← freevm u
  .ok (-1, { s with kmem := k })

def execArgs (s : Vm) (name : List UInt8) (entry : Nat) (u : Uvm) (sz : Nat)
    (argv : List (List UInt8)) : Except Panic (Int × Vm) := do
  let (ok, sp, ustack, u) ← pushArgs argv 0 sz [] u
  if ok then
    let argc := ustack.length
    let words := [0xffffffff, argc, (sp + 2 ^ 32 - (argc + 1) * 4) % 2 ^ 32] ++ ustack ++ [0]
    let sp := (sp + 2 ^ 32 - (3 + argc + 1) * 4) % 2 ^ 32
    let (r, u) ← copyout u sp (wordsBytes words)
    if r < 0 then execBad s u
    else do
      let k ← freevm ⟨s.proc.pgdir, u.kmem⟩
      .ok (0, { s with
        proc := { s.proc with name := name, pgdir := u.pgdir, sz := sz, tf := ⟨entry, sp⟩ }
        kmem := k })
  else execBad s u

def execStack (s : Vm) (name : List UInt8) (entry : Nat) (u : Uvm) (sz : Nat)
    (argv : List (List UInt8)) : Except Panic (Int × Vm) := do
  let sz := PGROUNDUP ((sz + PGSIZE) % 2 ^ 32)
  let s := { s with proc := { s.proc with sstack := sz } }
  let sz := PGROUNDUP ((sz + PGSIZE * (MAXSTACKPAGES - 1)) % 2 ^ 32)
  let (sz, u) ← allocuvm u sz ((sz + PGSIZE) % 2 ^ 32)
  if sz = 0 then execBad s u else execArgs s name entry u sz argv

structure Path where
  path : List UInt8
  ip : Option (Fin NINODE)

/-- The last element of a path, cut to what proc->name holds. -/
def Path.last (p : Path) : List UInt8 :=
  ((p.path.reverse.takeWhile (· ≠ 0x2F)).reverse).take 15

/-- The parameter is how loaduvm stores. -/
def execWith (put : Uvm → Nat → Int → Lib.Bytes → Uvm) (s : Vm) (path : Path)
    (argv : List (List UInt8)) : Except Panic (Int × Vm) :=
  match path.ip with
  | none => .ok (-1, s)
  | some i => do
    let ip := s.fs.inode i
    let s := { s with fs := s.fs.iget i }
    let (r, elf) ← readi ip 0 ELFHDRSIZE
    if r < ELFHDRSIZE ∨ word elf 0 ≠ ELFMAGIC then .ok (-1, { s with fs := s.fs.iput i })
    else match ← setupkvm s.kmem with
      | (none, k) => .ok (-1, { s with fs := s.fs.iput i, kmem := k })
      | (some d, k) => do
        let (ok, sz, u) ← loadSegmentsWith put ip (word elf 44 % 2 ^ 16) (word elf 28) 0 ⟨d, k⟩
        let s := { s with fs := s.fs.iput i }
        if ok then execStack s path.last (word elf 24) u sz argv else execBad s u

def exec := execWith Uvm.put

section Image

def Below (d : PgDir) (sz : Nat) : Prop := ∀ v, v < UPAGES → sz ≤ v * PGSIZE → d.entry v = none

theorem Below.mono {d : PgDir} {sz' : Nat} (h : Below d sz) (le : sz ≤ sz') : Below d sz' :=
  fun v user above => h v user (le.trans above)

theorem allocuvm_below {oldsz newsz r : Nat} (below : Below u.pgdir oldsz)
    (small : oldsz < KERNBASE) (done : allocuvm u oldsz newsz = .ok (r, u')) (served : r ≠ 0) :
    oldsz ≤ r ∧ r < KERNBASE ∧ (oldsz ≤ newsz → r = newsz) ∧ Below u'.pgdir r := by
  rcases allocuvm_cases done with ⟨-, zero, -⟩ | ⟨less, rfl, rfl⟩ | ⟨le, low, loop⟩
  · exact absurd zero served
  · exact ⟨Nat.le_refl _, small, fun le => absurd less (by omega), below⟩
  · have new : r = newsz := loop.result.resolve_left served
    subst new
    refine ⟨le, low, fun _ => rfl, fun v user above => ?_⟩
    rw [loop.outside low (Nat.le_refl _) (.inr above)]
    exact below v user (by omega)

theorem loaduvmLoop_pgdir {addr offset i : Nat}
    (done : loaduvmLoop addr ip offset sz n u i = .ok (r, u')) : u'.pgdir = u.pgdir := by
  induction n generalizing u i with
  | zero => cases done
  | succ n ih =>
    unfold loaduvmLoop loaduvmLoopWith at done
    split at done
    · dsimp only at done
      rw [walkpgdir_noalloc] at done
      split at done
      · cases done
      · rename_i w walked
        obtain ⟨-, rfl⟩ : _ ∧ u = w := by simpa using walked
        obtain ⟨⟨r, bytes⟩, -, rest⟩ := bind_ok.mp done
        generalize (if sz - i < PGSIZE then sz - i else PGSIZE) = n1 at rest
        split at rest
        · cases rest
          rfl
        · exact (ih rest :)
    · cases done
      rfl

theorem loaduvm_pgdir {addr offset : Nat}
    (done : loaduvm u addr ip offset sz = .ok (r, u')) : u'.pgdir = u.pgdir := by
  unfold loaduvm loaduvmWith at done
  split at done
  · cases done
  · exact loaduvmLoop_pgdir done

theorem loadSegments_below {off sz' : Nat}
    (below : Below u.pgdir sz) (small : sz < KERNBASE)
    (done : loadSegments ip n off sz u = .ok (true, sz', u')) :
    sz' < KERNBASE ∧ Below u'.pgdir sz' := by
  induction n generalizing off sz u with
  | zero =>
    cases done
    exact ⟨small, below⟩
  | succ n ih =>
    obtain ⟨⟨r, b⟩, -, rest⟩ := bind_ok.mp done
    dsimp only at rest
    split at rest
    · cases rest
    split at rest
    · exact ih below small rest
    split at rest
    · cases rest
    obtain ⟨⟨x, w⟩, grown, rest⟩ := bind_ok.mp rest
    split at rest
    · cases rest
    obtain ⟨-, small', -, below'⟩ := allocuvm_below below small grown ‹_›
    obtain ⟨⟨q, w'⟩, loaded, rest⟩ := bind_ok.mp rest
    split at rest
    · cases rest
    · apply ih _ small' rest
      rw [loaduvm_pgdir loaded]
      exact below'

theorem copyoutLoop_pgdir {p : Lib.Bytes} {va at_ len : Nat}
    (done : copyoutLoop p n u va at_ len = .ok (r, u')) : u'.pgdir = u.pgdir := by
  induction n generalizing u va at_ len with
  | zero => cases done
  | succ n ih =>
    unfold copyoutLoop at done
    split at done
    · cases done
      rfl
    · obtain ⟨pa, -, rest⟩ := bind_ok.mp done
      cases pa with
      | none =>
        cases rest
        rfl
      | some pa => rw [ih rest]

theorem pushArgs_pgdir {argv : List (List UInt8)} {argc sp sp' : Nat} {ustack ustack' : List Nat}
    {ok : Bool} (done : pushArgs argv argc sp ustack u = .ok (ok, sp', ustack', u')) :
    u'.pgdir = u.pgdir := by
  induction argv generalizing argc sp ustack u with
  | nil =>
    cases done
    rfl
  | cons arg rest ih =>
    unfold pushArgs at done
    split at done
    · cases done
      rfl
    · obtain ⟨⟨r, w⟩, copied, done⟩ := bind_ok.mp done
      have same : w.pgdir = u.pgdir := copyoutLoop_pgdir copied
      dsimp only at done
      split at done
      · cases done
        exact same
      · rw [ih done, same]

theorem execBad_fails (done : execBad s u = .ok (r, t)) :
    r = -1 := by
  obtain ⟨k, -, eq⟩ := bind_ok.mp done
  cases eq
  rfl

/-- The layout that a successful exec leaves: the window of MAXSTACKPAGES pages ends
at sz, and no user page starts at or after sz. -/
structure AfterExec (p : Proc) : Prop where
  aligned : p.sstack % PGSIZE = 0
  size : p.sz = p.sstack + MAXSTACKPAGES * PGSIZE
  low : p.sz < KERNBASE
  below : Below p.pgdir p.sz

/-- Only the top page of the window is allocated, and the page below the window is
left out, so there is a hole of MAXSTACKPAGES pages. -/
structure JustExeced (p : Proc) : Prop extends AfterExec p where
  guard : PGSIZE ≤ p.sstack
  hole : ∀ v, p.sstack ≤ v * PGSIZE + PGSIZE → v * PGSIZE < p.sstack + 7 * PGSIZE →
    p.pgdir.entry v = none

theorem execArgs_image {name : List UInt8} {entry : Nat}
    {argv : List (List UInt8)} (done : execArgs s name entry u sz argv = .ok (0, t)) :
    ∃ tf, t.proc = { s.proc with name := name, pgdir := u.pgdir, sz := sz, tf := tf } := by
  obtain ⟨⟨ok, sp, ustack, w⟩, pushed, rest⟩ := bind_ok.mp done
  have same := pushArgs_pgdir pushed
  dsimp only at rest
  split at rest
  · obtain ⟨⟨r, w'⟩, copied, rest⟩ := bind_ok.mp rest
    have same' : w'.pgdir = w.pgdir := copyoutLoop_pgdir copied
    split at rest
    · cases execBad_fails rest
    · obtain ⟨k, -, eq⟩ := bind_ok.mp rest
      cases eq
      rw [same', same]
      exact ⟨_, rfl⟩
  · cases execBad_fails rest

theorem execStack_image {name : List UInt8} {entry : Nat}
    {argv : List (List UInt8)} (small : sz < KERNBASE) (below : Below u.pgdir sz)
    (done : execStack s name entry u sz argv = .ok (0, t)) :
    JustExeced t.proc ∧ t.proc.ommap = s.proc.ommap := by
  obtain ⟨⟨r, w⟩, grown, rest⟩ := bind_ok.mp done
  dsimp only at rest
  split at rest
  · cases execBad_fails rest
  rename_i served
  obtain ⟨tf, image⟩ := execArgs_image rest
  have top : PGROUNDUP ((sz + PGSIZE) % 2 ^ 32) = (sz + PGSIZE + 4095) / 4096 * 4096 := by
    unfold PGROUNDUP
    simp only [PGSIZE, KERNBASE] at small ⊢
    omega
  have window :
      PGROUNDUP ((PGROUNDUP ((sz + PGSIZE) % 2 ^ 32) + PGSIZE * (MAXSTACKPAGES - 1)) % 2 ^ 32) =
      PGROUNDUP ((sz + PGSIZE) % 2 ^ 32) + 7 * PGSIZE := by
    rw [top]
    unfold PGROUNDUP
    simp only [PGSIZE, KERNBASE, MAXSTACKPAGES] at small ⊢
    omega
  rw [window] at grown
  have next : (PGROUNDUP ((sz + PGSIZE) % 2 ^ 32) + 7 * PGSIZE + PGSIZE) % 2 ^ 32 =
      PGROUNDUP ((sz + PGSIZE) % 2 ^ 32) + 8 * PGSIZE := by
    rw [top]
    simp only [PGSIZE, KERNBASE] at small ⊢
    omega
  rw [next] at grown
  have stack : Below u.pgdir (PGROUNDUP ((sz + PGSIZE) % 2 ^ 32) + 7 * PGSIZE) := by
    apply below.mono
    rw [top]
    simp only [PGSIZE]
    omega
  have fits : PGROUNDUP ((sz + PGSIZE) % 2 ^ 32) + 7 * PGSIZE < KERNBASE := by
    rcases allocuvm_cases grown with ⟨-, zero, -⟩ | ⟨less, -⟩ | ⟨-, low, -⟩
    · exact absurd zero served
    · exact absurd less (by simp only [PGSIZE]; omega)
    · simp only [PGSIZE] at low ⊢
      omega
  obtain ⟨-, low, new, below'⟩ := allocuvm_below stack fits grown served
  have size := new (by simp only [PGSIZE]; omega)
  have guard : sz + PGSIZE ≤ PGROUNDUP ((sz + PGSIZE) % 2 ^ 32) := by
    rw [top]
    simp only [PGSIZE]
    omega
  -- the allocation below the top of the window touches no page of the hole
  have untouched : ∀ v, v * PGSIZE < PGROUNDUP ((sz + PGSIZE) % 2 ^ 32) + 7 * PGSIZE →
      w.pgdir.entry v = u.pgdir.entry v := by
    intro v under
    rcases allocuvm_cases grown with ⟨-, zero, -⟩ | ⟨less, -⟩ | ⟨-, top_low, loop⟩
    · exact absurd zero served
    · exact absurd less (by simp only [PGSIZE]; omega)
    · apply loop.outside top_low (Nat.le_refl _)
      left
      rw [PGROUNDUP_aligned _ (Nat.le_of_lt fits)]
      · exact under
      · have := PGROUNDUP_mod ((sz + PGSIZE) % 2 ^ 32)
        simp only [PGSIZE] at this ⊢
        omega
  rw [image]
  refine ⟨⟨⟨PGROUNDUP_mod _, size, low, below'⟩, le_trans (Nat.le_add_left _ _) guard, ?_⟩, rfl⟩
  intro v above under
  change w.pgdir.entry v = none
  rw [untouched v under]
  apply below v
  · have := user_page (lt_trans under fits)
    rwa [Nat.mul_div_cancel _ (by decide)] at this
  · simp only [PGSIZE] at above guard ⊢
    omega

theorem exec_image {path : Path} {argv : List (List UInt8)}
    (done : exec s path argv = .ok (0, t)) :
    JustExeced t.proc ∧ t.proc.ommap = s.proc.ommap := by
  unfold exec execWith at done
  split at done
  · cases done
  · obtain ⟨⟨r, elf⟩, -, rest⟩ := bind_ok.mp done
    dsimp only at rest
    split at rest
    · cases rest
    obtain ⟨⟨d, k⟩, setup, rest⟩ := bind_ok.mp rest
    cases d with
    | none => cases rest
    | some d =>
      obtain ⟨⟨ok, sz, u⟩, loaded, rest⟩ := bind_ok.mp rest
      cases ok with
      | false => cases execBad_fails rest
      | true =>
        have empty : Below d 0 := fun v user _ => setupkvm_user setup user
        obtain ⟨small, below⟩ := loadSegments_below empty (by decide) loaded
        obtain ⟨image, maps⟩ := execStack_image small below rest
        exact ⟨image, maps⟩

end Image

end MmapXv6
