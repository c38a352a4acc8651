import MmapXv6.File.Table
import MmapXv6.Proc.Sched
import MmapXv6.Sem.Table

/-! The life of a process in all its parts: allocproc, fork, exit and wait of proc.c
with the memory, the files, the semaphores and the mappings they take and give back,
and the time slice that trap counts. A call is one step; the current directory and
what sched saves are left out. -/
namespace MmapXv6

open Function

abbrev QUANTUM : Nat := 5

/-- The process table with what fork and exit touch besides. The ushort ticks and the
page of the kernel stack are two more fields of struct proc; page 0 is the null
pointer. -/
structure Kernel where
  table : Ptable := {}
  ticks : Slot → Nat := fun _ => 0
  kstack : Slot → Nat := fun _ => 0
  kmem : Kmem := {}
  fs : Fs := {}
  ref : Fin NFILE → Nat := fun _ => 0
  sem : SemId → Semaphore := fun _ => {}

namespace Kernel

def files (s : Kernel) : Files where
  proc := s.table.proc
  kmem := s.kmem
  fs := s.fs
  ref := s.ref

def setFiles (s : Kernel) (f : Files) : Kernel :=
  { s with table := { s.table with proc := f.proc }, kmem := f.kmem, fs := f.fs, ref := f.ref }

def allocproc (s : Kernel) : Option Slot × Kernel :=
  match MmapXv6.allocproc s.table with
  | none => (none, s)
  | some (p, t) =>
    match s.kmem.kalloc with
    | none => (none, { s with
      table := allocprocUndo t p
      kstack := update s.kstack p 0 })
    | some (kstack, k) => (some p, { s with
      table := allocprocSetup t p
      kmem := k
      kstack := update s.kstack p kstack })

/-- What fork writes to the slot np, the semaphores as in forkProc. -/
def copyProc (s : Kernel) (p np : Slot) (d : PgDir) : Kernel :=
  { s with table := s.table.modify np fun slot =>
    { forkProc (s.table.proc p) slot d with
      osemaphore := fun i => if ((s.table.proc p).osemaphore i).isSome
        then (s.table.proc p).osemaphore i else slot.osemaphore i } }

def dupSem (p : Slot) (s : Kernel) (i : Fin MAXPROCSEM) : Except Panic Kernel :=
  match (s.table.proc p).osemaphore i with
  | none => .ok s
  | some x => do
    let sem ← semdup s.sem x
    .ok { s with sem := sem }

def forkShare (s : Kernel) (p np : Slot) : Except Panic (Option Slot × Kernel) := do
  let f ← (List.finRange NOFILE).foldlM (Files.dupFd p) s.files
  let s ← (List.finRange MAXPROCSEM).foldlM (dupSem p) (s.setFiles f)
  let t ← forkQueue s.table p np
  .ok (some np, { s with table := t })

def fork (s : Kernel) (p : Slot) : Except Panic (Option Slot × Kernel) :=
  match s.allocproc with
  | (none, s) => .ok (none, s)
  | (some np, s) => do
    match ← copyuvm (s.table.proc p).pgdir s.kmem (s.table.proc p).sz with
    | (none, k) =>
      let k ← k.kfree (s.kstack np)
      .ok (none, { s with
        table := allocprocUndo s.table np
        kmem := k
        kstack := update s.kstack np 0 })
    | (some d, k) => forkShare ({ s with kmem := k }.copyProc p np d) p np

def closeSem (p : Slot) (s : Kernel) (i : Fin MAXPROCSEM) : Except Panic Kernel :=
  match (s.table.proc p).osemaphore i with
  | none => .ok s
  | some x => do
    let sem ← semclose s.sem x
    .ok { s with
      sem := sem
      table := s.table.modify p fun q => { q with
        osemaphore := update q.osemaphore i none } }

/-- The ticks stay as they are, for the next process in the slot. -/
def exit (s : Kernel) (p : Slot) : Except Panic Kernel :=
  if s.table.initproc = some p then .error .initExiting
  else do
    let v ← exitUnmap (s.files.view p)
    let f ← (List.finRange NOFILE).foldlM (Files.closeFd p) (s.files.install p v)
    let s ← (List.finRange MAXPROCSEM).foldlM (closeSem p) (s.setFiles f)
    let t ← exitLocked s.table p
    .ok { s with table := t }

def wait (s : Kernel) (p : Slot) : Except Panic Kernel :=
  match MmapXv6.wait s.table p with
  | (.reaped c _, t) => do
    let k ← s.kmem.kfree (s.kstack c)
    let k ← freevm ⟨(s.table.proc c).pgdir, k⟩
    .ok { s with table := t, kmem := k, kstack := update s.kstack c 0 }
  | (_, t) => .ok { s with table := t }

def timer (s : Kernel) (p : Slot) : Except Panic Kernel :=
  if s.ticks p = QUANTUM - 1 then do
    let t ← yield s.table p
    .ok { s with ticks := update s.ticks p 0, table := t }
  else .ok { s with ticks := update s.ticks p ((s.ticks p + 1) % 2 ^ 16) }

/-- The image of initcode is less than a page, and its page is not checked for null. -/
def inituvm (u : Uvm) (init : Lib.Bytes) : Except Panic Uvm :=
  match u.kmem.kalloc with
  | none => .error .absentPage
  | some (mem, k) => do
    let (_, u) ← mappages { u with kmem := k } 0 PGSIZE (userPte mem)
    .ok { u with kmem := { u.kmem with mem := update u.kmem.mem mem init } }

def userinit (k : Kmem) (initcode : Lib.Bytes) : Except Panic Kernel :=
  match allocproc { kmem := k } with
  | (none, _) => .error .userinitMemory
  | (some p, s) => do
    match ← setupkvm s.kmem with
    | (none, _) => .error .userinitMemory
    | (some d, k) =>
      let u ← inituvm ⟨d, k⟩ initcode
      let t ← makeRunnable { s.table.modify p (fun q => { q with
        pgdir := u.pgdir
        sz := PGSIZE
        tf := ⟨0, PGSIZE⟩ }) with initproc := some p } p
      .ok { s with table := t, kmem := u.kmem }

end Kernel

inductive KernelAct where
  | fork (p : Slot)
  | exit (p : Slot)
  | wait (p : Slot)
  | kill (p : Slot) (pid : Int)
  | timer (p : Slot)
  | dispatch

def kernelStep (s : Kernel) : KernelAct → Except Panic Kernel
  | .fork p => do .ok (← s.fork p).2
  | .exit p => s.exit p
  | .wait p => s.wait p
  | .kill _ pid => do .ok { s with table := (← kill s.table pid).2 }
  | .timer p => s.timer p
  | .dispatch => do .ok { s with table := (← scheduler s.table).2 }

/-- Only a RUNNING process makes a call or is hit by the clock. -/
def KernelAct.Legal (s : Kernel) : KernelAct → Prop
  | .fork p | .exit p | .wait p | .kill p _ | .timer p => (s.table.proc p).state = .running
  | .dispatch => True

/-- What main has set up before userinit: different free pages behind the kernel. -/
structure Kmem.Booted (k : Kmem) : Prop where
  zero : 0 < k.kend
  page : ∀ x ∈ k.freelist, k.kend ≤ x ∧ x < PHYSTOP / PGSIZE
  distinct : k.freelist.Nodup
  data : k.kdata.1 % PGSIZE = 0

def Kernel.Reached : Kernel → Prop :=
  Lib.Reaches kernelStep (fun s a => a.Legal s)
    fun s => ∃ (k : Kmem) (initcode : Lib.Bytes), k.Booted ∧ Kernel.userinit k initcode = .ok s

end MmapXv6
