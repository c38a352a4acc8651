import MmapXv6.Pipe.Struct
import MmapXv6.Vm.Space

/-! A process in the kernel with the locks it holds: acquire and release of
spinlock.c, sched and sleep of proc.c, ilock and iunlock of fs.c, and what bread,
brelse, begin_op, end_op and log_write do with locks. Every process that may hold
what this one waits for, and the disk, are in the list waits. -/
namespace MmapXv6

inductive Spinlock where
  | ptable | cons | input | icache | bcache | ide | kmem | log
  | pipe (p : Nat)
  deriving DecidableEq, Repr

/-- The struct input of console.c, without the edit index. -/
structure Input where
  buf : Nat → UInt8 := fun _ => 0
  r : Nat := 0
  w : Nat := 0

/-- What other processes and interrupts change while this process sleeps. -/
structure World where
  pipe : Nat → Pipe := fun _ => {}
  input : Input := {}

structure StatInfo where
  dev : Nat := 1
  inum : Nat := 0
  nlink : Nat := 1

/-- The list spin has the spinlocks held by the CPU, so cpu->ncli is its length; busy has the
inodes whose I_BUSY this process set, logged counts log_write calls. Where the source may have
to wait, it asks waits: an entry some is one sleep with the world found after it, an entry none
ends the wait, and so does the empty list. -/
structure Kern where
  vm : Vm
  spin : List Spinlock := []
  busy : List (Fin NINODE) := []
  world : World := {}
  waits : List (Option World) := []
  logged : Nat := 0
  pipeOf : Fin NFILE → Nat := fun _ => 0
  console : Fin NINODE → Bool := fun _ => true
  stat : Fin NINODE → StatInfo := fun _ => {}

namespace Kern

def onlyIf (c : Prop) [Decidable c] (f : Kern → Except Panic Kern) (k : Kern) : Except Panic Kern :=
  if c then f k else .ok k

def acquire (lk : Spinlock) (k : Kern) : Except Panic Kern :=
  if lk ∈ k.spin then .error .acquire else .ok { k with spin := lk :: k.spin }

def release (lk : Spinlock) (k : Kern) : Except Panic Kern :=
  if lk ∈ k.spin then .ok { k with spin := k.spin.erase lk } else .error .release

def sched (k : Kern) : Except Panic Kern :=
  if .ptable ∉ k.spin then .error .schedPtableLock
  else if k.spin.length ≠ 1 then .error .schedLocks
  else .ok k

def sleep (lk : Spinlock) (k : Kern) : Except Panic Kern :=
  if lk = .ptable then k.sched
  else do
    let k ← k.acquire .ptable
    let k ← k.release lk
    let k ← k.sched
    let k ← k.release .ptable
    k.acquire lk

def wakeup (k : Kern) : Except Panic Kern := do
  let k ← k.acquire .ptable
  k.release .ptable

/-- A loop of the form while (condition) sleep(chan, lk). -/
def waitLoop (lk : Spinlock) : List (Option World) → Kern → Except Panic Kern
  | some w :: rest, k => do
    let k ← k.sleep lk
    waitLoop lk rest { k with world := w, waits := rest }
  | none :: rest, k => .ok { k with waits := rest }
  | [], k => .ok k

def waitWhile (lk : Spinlock) (k : Kern) : Except Panic Kern := k.waitLoop lk k.waits

def withLock (lk : Spinlock) (k : Kern) : Except Panic Kern := do
  let k ← k.acquire lk
  k.release lk

def cprintf (k : Kern) : Except Panic Kern := k.withLock .cons

def iderw (k : Kern) : Except Panic Kern := do
  let k ← k.acquire .ide
  let k ← k.waitWhile .ide
  k.release .ide

/-- The disk is asked only for a block that is not in the cache. -/
def bread (k : Kern) : Except Panic Kern := do
  let k ← k.acquire .bcache
  let k ← k.waitWhile .bcache
  let k ← k.release .bcache
  match k.waits with
  | some _ :: _ => k.iderw
  | none :: rest => .ok { k with waits := rest }
  | [] => .ok k

def brelse (k : Kern) : Except Panic Kern := do
  let k ← k.acquire .bcache
  let k ← k.wakeup
  k.release .bcache

def useBlock (k : Kern) : Except Panic Kern := do
  let k ← k.bread
  k.brelse

def logWrite (k : Kern) : Except Panic Kern := { k with logged := k.logged + 1 }.withLock .log

def beginOp (k : Kern) : Except Panic Kern := do
  let k ← k.acquire .log
  let k ← k.waitWhile .log
  k.release .log

/-- The commit reads and writes the blocks of the log with no lock held. -/
def endOp (k : Kern) : Except Panic Kern := do
  let k ← k.acquire .log
  let k ← k.wakeup
  let k ← k.release .log
  let k ← (List.range k.logged).foldlM (fun k _ => k.useBlock) k
  let k ← { k with logged := 0 }.acquire .log
  let k ← k.wakeup
  k.release .log

/-- An inode that this process has locked stays busy, so the wait never ends. -/
def ilock (ip : Fin NINODE) (k : Kern) : Except Panic Kern := do
  let k ← k.acquire .icache
  if ip ∈ k.busy then do
    let _ ← k.sleep .icache
    .error .selfDeadlock
  else do
    let k ← k.waitWhile .icache
    { k with busy := ip :: k.busy }.release .icache

def iunlock (ip : Fin NINODE) (k : Kern) : Except Panic Kern :=
  if ip ∉ k.busy then .error .iunlock
  else do
    let k ← k.acquire .icache
    let k ← { k with busy := k.busy.erase ip }.wakeup
    k.release .icache

end Kern

end MmapXv6
