import MmapXv6.Vm.Pages
import MmapXv6.Vm.File
import Mathlib.Data.List.FinRange

/-! The address space of the running process: mmap.c, the page-fault branch of trap
in trap.c, growproc, fork and the unmapping loop of exit in proc.c. A load or a store
goes through the page table as the hardware does it: a store sets PTE_D, and an
access that the entry does not admit enters the handler and is made again. -/
namespace MmapXv6

open Function

structure Vm where
  proc : Proc := {}
  kmem : Kmem := {}
  fs : Fs := {}

def Vm.uvm (s : Vm) : Uvm := ⟨s.proc.pgdir, s.kmem⟩

def Vm.setUvm (s : Vm) (u : Uvm) : Vm :=
  { s with proc := { s.proc with pgdir := u.pgdir }, kmem := u.kmem }

def Vm.entry (s : Vm) (v : Nat) : Option Pte := s.proc.pgdir.entry v

def Vm.fill (s : Vm) (v : Nat) (e : Pte) (page : Lib.Bytes) : Vm :=
  s.setUvm ⟨s.proc.pgdir.set v (some { e with dirty := true }),
    { s.kmem with mem := update s.kmem.mem e.pa page }⟩

/-- The int va and sz of the source are compared with the uint cr2, so as uints. -/
def mmapin (ommap : Fin MAXMAPPEDFILES → Mmap) (cr2 : Nat) : Option (Fin MAXMAPPEDFILES) :=
  (List.finRange MAXMAPPEDFILES).find? fun i =>
    (ommap i).pfile.isSome && decide ((ommap i).va ≤ cr2) &&
      decide (cr2 < ((ommap i).va + (ommap i).sz) % 2 ^ 32)

/-- The handler's read of one page of a mapped file to its user address. -/
def loadMapped (s : Vm) (m : Mmap) (basepgaddr : Nat) : Except Panic Vm :=
  match m.pfile with
  | none => .error .nullInode
  | some f => do
    let fs ← fileseek s.fs f ((basepgaddr + 2 ^ 32 - m.va) % 2 ^ 32)
    let (r, bytes, fs) ← fileread fs f PGSIZE
    let s := { s with fs := fs }
    if r ≤ 0 then .ok s
    else match s.entry (basepgaddr / PGSIZE) with
      | none => .error .absentPage
      | some e =>
        let old := s.kmem.mem e.pa
        .ok (s.fill (basepgaddr / PGSIZE) e fun j => if j < r.toNat then bytes j else old j)

/-- The T_PGFLT branch. A fault that it does not serve kills a process in user mode
and stops the kernel otherwise. -/
def trap (s : Vm) (cr2 : Nat) (user : Bool) : Except Panic Vm :=
  let basepgaddr := PGROUNDDOWN cr2
  if s.proc.sstack ≤ cr2 ∧ cr2 < (s.proc.sstack + MAXSTACKPAGES * PGSIZE) % 2 ^ 32 then do
    let (r, u) ← allocuvm s.uvm basepgaddr ((basepgaddr + PGSIZE) % 2 ^ 32)
    if r = 0 then .error .trapAllocStack else .ok (s.setUvm u)
  else match mmapin s.proc.ommap cr2 with
    | some i => do
      let (r, u) ← allocuvm s.uvm basepgaddr ((basepgaddr + PGSIZE) % 2 ^ 32)
      if r = 0 then .error .trapAllocMmap
      else loadMapped (s.setUvm u) (s.proc.ommap i) basepgaddr
    | none =>
      if user then .ok { s with proc := { s.proc with killed := true } } else .error .trap

def Pte.admits (e : Pte) (write user : Bool) : Bool := (e.writable || !write) && (e.user || !user)

/-- The entry through which an access to a is made, if the hardware lets it pass. -/
def Vm.admits (s : Vm) (a : Nat) (write user : Bool) : Option Pte :=
  (s.entry (a / PGSIZE)).filter (·.admits write user)

/-- An access with its fault. The result none is an access that is never made, since
the handler's return to user mode ends in exit. Where no page is there after the
handler, a page table could not be allocated, and the next fault finds no memory. -/
def Vm.access (s : Vm) (a : Nat) (write user : Bool) : Except Panic (Option Pte × Vm) :=
  match s.admits a write user with
  | some e => .ok (some e, s)
  | none => do
    let s ← trap s a user
    if user && s.proc.killed then .ok (none, s)
    else match s.admits a write user with
      | some e => .ok (some e, s)
      | none => .error .absentPage

def Vm.load (s : Vm) (a : Nat) : Except Panic (Option UInt8 × Vm) := do
  match ← s.access a false true with
  | (none, s) => .ok (none, s)
  | (some e, s) => .ok (some (s.kmem.mem e.pa (a % PGSIZE)), s)

def Vm.store (s : Vm) (a : Nat) (b : UInt8) (user : Bool) : Except Panic (Bool × Vm) := do
  match ← s.access a true user with
  | (none, s) => .ok (false, s)
  | (some e, s) =>
    .ok (true, s.fill (a / PGSIZE) e (update (s.kmem.mem e.pa) (a % PGSIZE) b))

/-- The bytes of a word and their addresses, in the order of the addresses. -/
def wordBytes (addr w : Nat) : List (Nat × UInt8) :=
  (List.range 4).map fun j => ((addr + j) % 2 ^ 32, UInt8.ofNat (w / 2 ^ (8 * j)))

def Vm.put (s : Vm) (p : Nat × UInt8) : Except Panic Vm := do
  let (_, s) ← s.store p.1 p.2 false
  .ok s

def Vm.storeWord (s : Vm) (addr w : Nat) : Except Panic Vm := (wordBytes addr w).foldlM Vm.put s

/-- A read of the kernel through a user address. -/
def Vm.peek (s : Vm) (a : Nat) : Except Panic (UInt8 × Vm) := do
  match ← s.access a false false with
  | (none, s) => .ok (0, s)
  | (some e, s) => .ok (s.kmem.mem e.pa (a % PGSIZE), s)

def Vm.peekWord (s : Vm) (addr : Nat) : Except Panic (Nat × Vm) :=
  (List.range 4).foldlM (fun (r : Nat × Vm) j => do
    let (b, s) ← r.2.peek (addr + j)
    .ok (r.1 + b.toNat * 2 ^ (8 * j), s)) (0, s)

def openFile (p : Proc) (fd : Int) : Option (Fin NFILE) :=
  if h : 0 ≤ fd ∧ fd.toNat < NOFILE then p.ofile ⟨fd.toNat, h.2⟩ else none

def mapInode (s : Vm) (fd : Int) : Option (Fin NINODE) :=
  (openFile s.proc fd).bind fun f => (s.fs.file f).ip

def freeMmap (ommap : Fin MAXMAPPEDFILES → Mmap) : Option (Fin MAXMAPPEDFILES) :=
  (List.finRange MAXMAPPEDFILES).find? fun i => (ommap i).pfile.isNone

def Vm.addMmap (s : Vm) (i : Fin MAXMAPPEDFILES) (f : Fin NFILE) (size : Nat) : Vm :=
  { s with proc := { s.proc with
    ommap := update s.proc.ommap i ⟨some f, s.proc.sz, size⟩
    sz := PGROUNDUP ((s.proc.sz + size) % 2 ^ 32) } }

def mmap (s : Vm) (fd : Int) (addr : Nat) : Except Panic (Int × Vm) :=
  match openFile s.proc fd with
  | none => .ok (-1, s)
  | some f =>
    match freeMmap s.proc.ommap with
    | none => .ok (-2, s)
    | some i =>
      match (s.fs.file f).ip with
      | none => .error .nullInode
      | some ip => do
        let t ← (s.addMmap i f (s.fs.inode ip).size).storeWord addr s.proc.sz
        .ok (0, t)

/-- The body of munmap's loop: a dirty page of a writable file goes back to the file. -/
def writeback (s : Vm) (f : Fin NFILE) (addr offset : Nat) : Except Panic Vm :=
  match pgflags s.proc.pgdir offset (·.dirty) with
  | none => .ok s
  | some e =>
    if (s.fs.file f).writable then do
      let fs ← fileseek s.fs f ((offset + 2 ^ 32 - addr) % 2 ^ 32)
      let (_, fs) ← filewrite fs f (s.kmem.mem e.pa) PGSIZE
      .ok { s with fs := fs }
    else .ok s

def writebackLoop (f : Fin NFILE) (addr size : Nat) : Nat → Vm → Nat → Except Panic Vm
  | 0, _, _ => .error .loops
  | n + 1, s, offset =>
    if offset < size then do
      let s ← writeback s f addr offset
      writebackLoop f addr size n s ((offset + PGSIZE) % 2 ^ 32)
    else .ok s

def mappingAt (ommap : Fin MAXMAPPEDFILES → Mmap) (addr : Nat) : Option (Fin MAXMAPPEDFILES) :=
  (List.finRange MAXMAPPEDFILES).find? fun i =>
    decide ((ommap i).va ≠ 0) && (ommap i).pfile.isSome && decide (addr = (ommap i).va)

def Vm.dropMmap (s : Vm) (i : Fin MAXMAPPEDFILES) : Vm :=
  { s with proc := { s.proc with
    ommap := update s.proc.ommap i { s.proc.ommap i with pfile := none, va := 0 } } }

/-- The part of munmap after the search. What it calls size is the end address. -/
def munmapAt (s : Vm) (i : Fin MAXMAPPEDFILES) (f : Fin NFILE) : Except Panic Vm := do
  let baseaddr := (s.proc.ommap i).va
  let size := (baseaddr + (s.proc.ommap i).sz) % 2 ^ 32
  let s ← writebackLoop f baseaddr size (NPAGES + 1) s baseaddr
  let (_, u) ← unmappages s.uvm baseaddr size
  .ok ((s.setUvm u).dropMmap i)

def munmap (s : Vm) (addr : Nat) : Except Panic (Int × Vm) :=
  match mappingAt s.proc.ommap addr with
  | none => .ok (-1, s)
  | some i =>
    match (s.proc.ommap i).pfile with
    | none => .ok (-1, s)
    | some f => do
      let s ← munmapAt s i f
      .ok (0, s)

def brk (p : Proc) (n : Int) : Nat := (((p.sz : Int) + n) % 2 ^ 32).toNat

def growproc (s : Vm) (n : Int) : Except Panic (Int × Vm) :=
  let resized (r : Nat × Uvm) : Int × Vm :=
    if r.1 = 0 then (-1, s.setUvm r.2)
    else (0, { s with proc := { s.proc with sz := r.1, pgdir := r.2.pgdir }, kmem := r.2.kmem })
  if 0 < n then do .ok (resized (← allocuvm s.uvm s.proc.sz (brk s.proc n)))
  else if n < 0 then do .ok (resized (← deallocuvm s.uvm s.proc.sz (brk s.proc n)))
  else .ok (0, s)

/-- What fork writes to the new process. The slot keeps what its last owner left in
the descriptors and mappings that the parent does not have. -/
def forkProc (p slot : Proc) (pgdir : PgDir) : Proc :=
  { slot with
    pgdir := pgdir
    sz := p.sz
    sstack := p.sstack
    tf := p.tf
    name := p.name
    ofile := fun i => if (p.ofile i).isSome then p.ofile i else slot.ofile i
    ommap := fun i => if (p.ommap i).pfile.isSome then p.ommap i else slot.ommap i }

/-- The memory of fork: a kernel stack, then a copy of the address space. The result
has the new process, if there is one, and the parent's side. -/
def fork (s : Vm) (slot : Proc) : Except Panic (Option Proc × Vm) :=
  match s.kmem.kalloc with
  | none => .ok (none, s)
  | some (kstack, k) => do
    match ← copyuvm s.proc.pgdir k s.proc.sz with
    | (none, k) =>
      let k ← k.kfree kstack
      .ok (none, { s with kmem := k })
    | (some d, k) => .ok (some (forkProc s.proc slot d), { s with kmem := k })

def unmapLive (s : Vm) (i : Fin MAXMAPPEDFILES) : Except Panic Vm :=
  if (s.proc.ommap i).pfile.isSome then do
    let (_, s) ← munmap s (s.proc.ommap i).va
    .ok s
  else .ok s

def exitUnmap (s : Vm) : Except Panic Vm := (List.finRange MAXMAPPEDFILES).foldlM unmapLive s

end MmapXv6
