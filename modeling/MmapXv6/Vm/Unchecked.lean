import MmapXv6.Vm.Space

/-! The pointer argument of sys_mmap. The wrapper fetches it with argint, so nothing
compares it with sz before mmap stores through it. What a function stores to is said by
leaving its stores open: it touches no address outside a set when any two ways to store
that agree on the set give the same result. -/
namespace MmapXv6

open Lib (toInt bind_ok ok_bind pure_ok foldlM_congr)
open Function (update update_idem)

abbrev Put := Vm → Nat × UInt8 → Except Panic Vm

def storeWordWith (put : Put) (s : Vm) (addr w : Nat) : Except Panic Vm :=
  (wordBytes addr w).foldlM put s

def Vm.claimMmap (s : Vm) (i : Fin MAXMAPPEDFILES) (f : Fin NFILE) : Vm :=
  { s with proc := { s.proc with
    ommap := update s.proc.ommap i { s.proc.ommap i with pfile := some f } } }

/-- fileformap->ip->size. The struct file of a pipe may have no inode, and then the kernel
reads the word at the offset of size in struct inode, counted from address 0. -/
def mappedSize (s : Vm) (f : Fin NFILE) : Except Panic (Nat × Vm) :=
  match (s.fs.file f).ip with
  | none => s.peekWord 24
  | some ip => .ok ((s.fs.inode ip).size, s)

def mmapWith (put : Put) (s : Vm) (fd : Int) (addr : Nat) : Except Panic (Int × Vm) :=
  match openFile s.proc fd with
  | none => .ok (-1, s)
  | some f =>
    match freeMmap s.proc.ommap with
    | none => .ok (-2, s)
    | some i => do
      let (size, s) ← mappedSize (s.claimMmap i f) f
      let t ← storeWordWith put (s.addMmap i f size) addr s.proc.sz
      .ok (0, t)

/-- On a file with an inode this is the function mmap that the rest of the model uses. -/
theorem mmapWith_put {s : Vm} {fd : Int} (addr : Nat)
    (inode : ∀ f, openFile s.proc fd = some f → (s.fs.file f).ip ≠ none) :
    mmapWith Vm.put s fd addr = mmap s fd addr := by
  unfold mmapWith mmap
  cases file : openFile s.proc fd with
  | none => rfl
  | some f =>
    cases slot : freeMmap s.proc.ommap with
    | none => rfl
    | some i =>
      obtain ⟨ip, there⟩ := Option.ne_none_iff_exists'.mp (inode f file)
      simp only [mappedSize, there, ok_bind, Vm.addMmap, Vm.claimMmap, update_idem]
      rfl

def sysMmapWith (put : Put) (s : Vm) (fd addr : Nat) : Except Panic (Int × Vm) :=
  mmapWith put s (toInt fd) addr

def sysMmap (s : Vm) (fd addr : Nat) : Except Panic (Int × Vm) := sysMmapWith Vm.put s fd addr

def StoresOnly {R : Type} (run : Put → R) (inside : Nat → Prop) : Prop :=
  ∀ put put' : Put, (∀ s p, inside p.1 → put s p = put' s p) → run put = run put'

structure MmapStores (s : Vm) (fd addr : Nat) : Prop where
  stores : StoresOnly (fun put => sysMmapWith put s fd addr)
    fun a => addr ≤ a ∧ a < addr + 4 ∧ addr + 4 ≤ s.proc.sz
  negative : ∀ r t, sysMmap s fd addr = .ok (r, t) → r < 0 → t = s

/-- No mapping has address 24. The slot that mmap takes counts with the place that its last
mapping has left in it. -/
def SizeUnmapped (s : Vm) (i : Fin MAXMAPPEDFILES) (f : Fin NFILE) : Prop :=
  mmapin (s.claimMmap i f).proc.ommap 24 = none

/-- The kernel panics in the handler when it reads the size of a file without an inode. -/
def SizeFaults (s : Vm) (fd : Nat) : Prop :=
  ∃ f i e, openFile s.proc (toInt fd) = some f ∧ freeMmap s.proc.ommap = some i ∧
    SizeUnmapped s i f ∧ mappedSize (s.claimMmap i f) f = .error e

section Mmap
variable {s : Vm} {fd addr : Nat}

theorem sysMmap_negative {r : Int} {t : Vm} (done : sysMmap s fd addr = .ok (r, t))
    (failed : r < 0) : t = s := by
  unfold sysMmap sysMmapWith mmapWith at done
  split at done
  · cases done
    rfl
  · split at done
    · cases done
      rfl
    · obtain ⟨x, -, stored⟩ := bind_ok.mp done
      obtain ⟨u, -, eq⟩ := bind_ok.mp stored
      cases eq
      cases failed

theorem peekWord_present {t : Vm} (there : (t.entry 0).isSome) :
    ∃ w, t.peekWord 24 = .ok (w, t) := by
  obtain ⟨e, there⟩ := Option.isSome_iff_exists.mp there
  have peek : ∀ j, j < 4 → t.peek (24 + j) = .ok (t.kmem.mem e.pa (24 + j), t) := by
    intro j less
    have page : (24 + j) / PGSIZE = 0 ∧ (24 + j) % PGSIZE = 24 + j := by
      simp only [PGSIZE]
      omega
    have through : t.admits (24 + j) false false = some e := by
      rw [Vm.admits, page.1, there]
      simp [Pte.admits]
    rw [Vm.peek, Vm.access, through, ok_bind]
    dsimp only
    rw [page.2]
  simp only [Vm.peekWord, List.range, List.range.loop, List.foldlM_cons, List.foldlM_nil,
    peek 0 (by decide), peek 1 (by decide), peek 2 (by decide), peek 3 (by decide),
    ok_bind, pure_ok]
  exact ⟨_, rfl⟩

theorem mappedSize_error {t : Vm} {f : Fin NFILE} {e : Panic} (failed : mappedSize t f = .error e) :
    (t.fs.file f).ip = none ∧ t.entry 0 = none := by
  unfold mappedSize at failed
  split at failed
  · rename_i none
    refine ⟨none, Option.not_isSome_iff_eq_none.mp fun there => ?_⟩
    obtain ⟨w, read⟩ := peekWord_present there
    cases failed.symm.trans read
  · cases failed

theorem wordBytes_inside {w : Nat} (low : addr + 4 ≤ 2 ^ 32) :
    ∀ p ∈ wordBytes addr w, addr ≤ p.1 ∧ p.1 < addr + 4 := by
  intro p mem
  obtain ⟨j, inside, rfl⟩ := List.mem_map.mp mem
  have := List.mem_range.mp inside
  rw [Nat.mod_eq_of_lt (by omega)]
  omega

end Mmap

/-- sys_mmap keeps to the four bytes at addr, and to the memory below sz, exactly when it
returns or panics before the store or the word at addr lies below sz. It does not make the
check. The hypothesis is about a file without an inode, and leaves out that the handler goes
on to read the pipe itself. -/
theorem sysMmap_stores_inside {s : Vm} (uint : s.proc.sz < 2 ^ 32) (fd addr : Nat)
    (read : ∀ f i, openFile s.proc (toInt fd) = some f → freeMmap s.proc.ommap = some i →
      (s.fs.file f).ip = none → s.entry 0 = none → SizeUnmapped s i f) :
    MmapStores s fd addr ↔
      openFile s.proc (toInt fd) = none ∨ freeMmap s.proc.ommap = none ∨ SizeFaults s fd ∨
        addr + 4 ≤ s.proc.sz := by
  have rest : (StoresOnly (fun put => sysMmapWith put s fd addr)
      fun a => addr ≤ a ∧ a < addr + 4 ∧ addr + 4 ≤ s.proc.sz) → MmapStores s fd addr :=
    fun stores => ⟨stores, fun _ _ done failed => sysMmap_negative done failed⟩
  constructor
  · intro h
    by_contra none
    push Not at none
    obtain ⟨open_, free, calm, high⟩ := none
    -- no address is inside, so nothing ties these two ways to store together
    have same := h.stores (fun t _ => .ok t) (fun _ _ => .error .trap) fun _ _ inside => by omega
    obtain ⟨f, file⟩ := Option.ne_none_iff_exists'.mp open_
    obtain ⟨i, slot⟩ := Option.ne_none_iff_exists'.mp free
    cases size : mappedSize (s.claimMmap i f) f with
    | error e =>
      obtain ⟨inode, absent⟩ := mappedSize_error size
      exact calm ⟨f, i, e, file, slot, read f i file slot inode absent, size⟩
    | ok r =>
      simp only [sysMmapWith, mmapWith, file, slot, size, storeWordWith, wordBytes, List.range,
        List.range.loop, List.map_cons, List.map_nil, List.foldlM_cons, List.foldlM_nil, ok_bind,
        pure_ok] at same
      cases same
  · intro condition
    apply rest
    intro put put' agree
    unfold sysMmapWith mmapWith
    cases file : openFile s.proc (toInt fd) with
    | none => rfl
    | some f =>
      cases slot : freeMmap s.proc.ommap with
      | none => rfl
      | some i =>
        cases size : mappedSize (s.claimMmap i f) f with
        | error e => simp only [size]; rfl
        | ok r =>
          have low : addr + 4 ≤ s.proc.sz := by
            rcases condition with none | none | ⟨f', i', e, file', slot', -, faults⟩ | low
            · cases file.symm.trans none
            · cases slot.symm.trans none
            · cases file.symm.trans file'
              cases slot.symm.trans slot'
              cases size.symm.trans faults
            · exact low
          have stored : ∀ t w, storeWordWith put t addr w = storeWordWith put' t addr w := by
            refine fun t w => foldlM_congr _ (fun p mem t => agree t p ?_) t
            obtain ⟨from_, below⟩ := wordBytes_inside (by omega) p mem
            exact ⟨from_, below, low⟩
          simp only [size, stored]

/-- A process of one page with a file on descriptor 0 and the kernel mapped above it. -/
def onePage : Vm where
  proc := {
    sz := PGSIZE
    pgdir := {
      tab := fun i => if i = 0 ∨ i = 512 then some 300 else none
      pte := fun v => if v = 0 then some (userPte 301) else
        if v = KERNBASE / PGSIZE then some ⟨0, true, false, false⟩ else none }
    ofile := fun i => if i = 0 then some 0 else none }
  fs := { file := fun f => if f = 0 then
    { type := .inode, readable := true, ip := some 0 } else {} }

/-- A pointer inside the one page of the process. -/
theorem sysMmap_stores_inside_onePage : MmapStores onePage 0 16 ∧
    mapInode onePage (toInt 0) = some 0 := by
  refine ⟨(sysMmap_stores_inside (by decide) 0 16 ?_).mpr
    (.inr (.inr (.inr (by decide)))), by decide⟩
  intro f i file _ none
  cases file
  cases none

/-- A process that gives the first kernel address gets the result 0, and the kernel has
stored the word 4096, its second byte 16, in the first physical page. -/
theorem sysMmap_stores_kernel :
    ¬ MmapStores onePage 0 KERNBASE ∧
    (sysMmap onePage 0 KERNBASE).map (fun r => (r.1, r.2.kmem.mem 0 1)) = .ok (0, 16) := by
  constructor
  · intro h
    have same := h.stores (fun t _ => .ok t) (fun _ _ => .error .trap) fun _ _ inside =>
      absurd inside.2.2 (by decide)
    have both := congrArg Except.isOk same
    revert both
    decide
  · decide +kernel

end MmapXv6
