import MmapXv6.Types
import MmapXv6.Lib.Run

/-! The process table of proc.c: the multilevel feedback queue (MLF) and every
function that runs with ptable.lock held. Each function is the body of one
critical section, so it is one atomic step of any interleaving. -/
namespace MmapXv6

/-- Indexing ptable.mlf with a priority; C leaves an index past the array undefined. -/
def mlfLevel (priority : Nat) : Except Panic (Fin MLFLEVELS) :=
  if h : priority < MLFLEVELS then .ok ⟨priority, h⟩ else .error .mlfOutOfBounds

def Ptable.setMlf (t : Ptable) (l : Fin MLFLEVELS) (m : Mlf) : Ptable :=
  { t with mlf := Function.update t.mlf l m }

/-- The first half of make_runnable: the new process becomes the first of an empty
level, or the old last one points to it. -/
def Ptable.linkLast (t : Ptable) (l : Fin MLFLEVELS) (p : Slot) : Ptable :=
  match (t.mlf l).last with
  | none => t.setMlf l { t.mlf l with first := some p }
  | some z => t.modify z (fun q => { q with next := some p })

def Ptable.enqueue (t : Ptable) (l : Fin MLFLEVELS) (p : Slot) : Ptable :=
  let linked := t.linkLast l p
  { (linked.setMlf l { linked.mlf l with last := some p }).modify p
      (fun q => { q with next := none, age := 0, state := .runnable }) with
    history := .push l p :: t.history }

def makeRunnable (t : Ptable) (p : Slot) : Except Panic Ptable := do
  let l ← mlfLevel (t.proc p).priority
  return t.enqueue l p

def unqueue (t : Ptable) (l : Fin MLFLEVELS) : Except Panic (Slot × Ptable) :=
  match (t.mlf l).first with
  | none => .error .emptyLevel
  | some p =>
    let m : Mlf :=
      if (t.mlf l).first = (t.mlf l).last then ⟨none, none⟩
      else { t.mlf l with first := (t.proc p).next }
    if (t.proc p).state ≠ .runnable then .error .unqueueNotRunnable
    else .ok (p, { t.setMlf l m with history := .pop l :: t.history })

def raise (t : Ptable) (p : Slot) : Ptable :=
  if MLFMAXPRIORITY < (t.proc p).priority
  then t.modify p (fun q => { q with priority := q.priority - 1 }) else t

def levelupdate (t : Ptable) (p : Slot) : Except Panic Ptable := do
  let l ← mlfLevel (t.proc p).priority
  let r ← unqueue t l
  makeRunnable (raise r.2 p) p

/-- What calculateaging does with a process whose age reached AGEFORAGINGS. -/
def promote (t : Ptable) (p : Slot) : Except Panic Ptable := do
  let k ← mlfLevel (t.proc p).priority
  if (t.mlf k).first ≠ some p then .error .notFirstOfLevel else levelupdate t p

def growOlder (t : Ptable) (p : Slot) : Ptable :=
  t.modify p (fun q => { q with age := (q.age + 1) % 2 ^ 16 })

/-- The body of calculateaging's loop at one level. The age is a ushort. -/
def ageLevel (t : Ptable) (l : Fin MLFLEVELS) : Except Panic Ptable :=
  match (t.mlf l).first with
  | none => .ok t
  | some p =>
    if ((growOlder t p).proc p).age = AGEFORAGINGS then promote (growOlder t p) p
    else .ok (growOlder t p)

def calculateaging (t : Ptable) : Except Panic Ptable :=
  (List.finRange MLFLEVELS).foldlM ageLevel t

/-- The locked part of allocproc: claim the first UNUSED slot. -/
def allocproc (t : Ptable) : Option (Slot × Ptable) :=
  match (List.finRange NPROC).find? (fun p => (t.proc p).state = .unused) with
  | none => none
  | some p =>
    some (p, { t.modify p (fun q => { q with state := .embryo, pid := t.nextpid }) with
      nextpid := t.nextpid + 1 })

/-- The rest of allocproc, on the claimed slot, once it has a kernel stack. -/
def allocprocSetup (t : Ptable) (p : Slot) : Ptable :=
  t.modify p (fun q => { q with priority := 0, age := 0 })

/-- What allocproc and fork do with the claimed slot when memory runs out. -/
def allocprocUndo (t : Ptable) (p : Slot) : Ptable :=
  t.modify p (fun q => { q with state := .unused })

def wakeupOne (chan : Option Chan) (t : Ptable) (p : Slot) : Except Panic Ptable :=
  if (t.proc p).state = .sleeping ∧ (t.proc p).chan = chan then
    makeRunnable (raise t p) p
  else .ok t

def wakeup1 (t : Ptable) (chan : Option Chan) : Except Panic Ptable :=
  (List.finRange NPROC).foldlM (wakeupOne chan) t

/-- The end of fork: the child gets its parent and is queued. -/
def forkQueue (t : Ptable) (parent np : Slot) : Except Panic Ptable :=
  makeRunnable (t.modify np (fun q => { q with parent := some parent })) np

/-- The dispatched process. One that comes back from sleep clears its chan before it
releases the lock it was dispatched with; for any other process chan is null. -/
def Proc.resume (q : Proc) : Proc := { q with state := .running, chan := none }

def scheduler (t : Ptable) : Except Panic (Option Slot × Ptable) :=
  match (List.finRange MLFLEVELS).find? (fun l => (t.mlf l).first.isSome) with
  | none => .ok (none, t)
  | some l => do
    let r ← unqueue t l
    return (some r.1, r.2.modify r.1 Proc.resume)

def lower (t : Ptable) (p : Slot) : Ptable :=
  if (t.proc p).priority < MLFLEVELS - 1
  then t.modify p (fun q => { q with priority := q.priority + 1 }) else t

def yield (t : Ptable) (p : Slot) : Except Panic Ptable :=
  makeRunnable (lower t p) p

def sleep (t : Ptable) (p : Slot) (chan : Chan) : Ptable :=
  t.modify p (fun q => { q with chan := some chan, state := .sleeping })

def killFound (t : Ptable) (p : Slot) : Except Panic Ptable :=
  if (t.proc p).state = .sleeping
  then makeRunnable (t.modify p (fun q => { q with killed := true })) p
  else .ok (t.modify p (fun q => { q with killed := true }))

def kill (t : Ptable) (pid : Int) : Except Panic (Int × Ptable) :=
  match (List.finRange NPROC).find? (fun p => (t.proc p).pid = pid) with
  | none => .ok (-1, t)
  | some p => do
    let t ← killFound t p
    return (0, t)

/-- One turn of exit's loop that passes abandoned children to init. -/
def reparent (p : Slot) (t : Ptable) (q : Slot) : Except Panic Ptable :=
  if (t.proc q).parent = some p then
    if (t.proc q).state = .zombie
    then wakeup1 (t.modify q (fun r => { r with parent := t.initproc })) (t.initproc.map Chan.proc)
    else .ok (t.modify q (fun r => { r with parent := t.initproc }))
  else .ok t

/-- The locked part of exit, up to the switch to the scheduler. -/
def exitLocked (t : Ptable) (p : Slot) : Except Panic Ptable := do
  let t ← wakeup1 t ((t.proc p).parent.map Chan.proc)
  let t ← (List.finRange NPROC).foldlM (reparent p) t
  return t.modify p (fun q => { q with state := .zombie })

inductive WaitResult where
  | reaped (child : Slot) (pid : Int)
  | failed
  | asleep
  deriving DecidableEq, Repr

/-- What wait leaves in the slot of a child it has found. -/
def Proc.reap (q : Proc) : Proc :=
  { q with state := .unused, pid := 0, parent := none, name := [], killed := false }

def wait (t : Ptable) (p : Slot) : WaitResult × Ptable :=
  match (List.finRange NPROC).find? (fun q => (t.proc q).parent = some p ∧
    (t.proc q).state = .zombie) with
  | some c => (.reaped c (t.proc c).pid, t.modify c Proc.reap)
  | none =>
    if (∀ q, (t.proc q).parent ≠ some p) ∨ (t.proc p).killed then (.failed, t)
    else (.asleep, sleep t p (.proc p))

/-- The system call setpriority stores its int argument into a ushort, with no lock
and no check. -/
def setpriority (t : Ptable) (p : Slot) (level : Int) : Ptable :=
  t.modify p (fun q => { q with priority := (level % 2 ^ 16).toNat })

def userinit : Except Panic Ptable :=
  match allocproc {} with
  | none => .ok {}
  | some (p, t) => makeRunnable { allocprocSetup t p with initproc := some p } p

end MmapXv6
