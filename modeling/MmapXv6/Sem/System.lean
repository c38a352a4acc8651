import MmapXv6.Proc.Moves
import MmapXv6.Sem.Table

/-! The semaphores as a machine on top of the scheduler. Its steps are the sections
under stable.lock, the stages of sleep between its two locks, the wakeup that semup
makes after it has released stable.lock, and the turns of the semaphore loops of fork
and exit. The entry that fork or exit writes next to semdup or semclose is private to
the process, so it belongs to the same step. -/
namespace MmapXv6

open Lib Function

/-- Where a process is in semaphore.c, or in the semaphore loops of fork and exit. -/
inductive SemPc where
  | user
  | downLoop (s : SemId)   -- in semdown with stable.lock, about to test the value
  | sleepBoth (s : SemId)  -- in sleep with stable.lock and ptable.lock
  | sleepOne (s : SemId)   -- in sleep with ptable.lock only
  | asleep (s : SemId)     -- switched out by sleep; back when it runs again
  | upWake (s : SemId)     -- in semup, between release(&stable.lock) and wakeup(s)
  | dup (k : Nat)          -- in fork, about to duplicate the k-th semaphore
  | closing (k : Nat)      -- in exit, about to close the k-th semaphore
  deriving DecidableEq, Repr

@[simp] def SemPc.downOn : SemPc → Option SemId
  | .downLoop s | .sleepBoth s | .sleepOne s | .asleep s => some s
  | _ => none

@[simp] def SemPc.hasStable : SemPc → Bool
  | .downLoop _ | .sleepBoth _ => true
  | _ => false

@[simp] def SemPc.hasPtable : SemPc → Bool
  | .sleepBoth _ | .sleepOne _ => true
  | _ => false

/-- What happened to a semaphore since semget created it: the pids of the semups that
have incremented its value and of the semdowns that have decremented it. -/
structure SemHistory where
  init : Int := 0
  ups : List Int := []
  downs : List Int := []

structure SemSystem where
  sched : Sched
  sem : SemId → Semaphore := fun _ => {}
  pc : Slot → SemPc := fun _ => .user
  stableLock : Option Slot := none
  ptableLock : Option Slot := none
  history : SemId → SemHistory := fun _ => {}

def SemSystem.proc (s : SemSystem) (p : Slot) : Proc := s.sched.table.proc p

def SemSystem.Free (s : SemSystem) (p : Slot) : Prop := s.sched.Free p ∧ s.pc p = .user

instance (s : SemSystem) (p : Slot) : Decidable (s.Free p) := inferInstanceAs (Decidable (_ ∧ _))

def SemSystem.goto (s : SemSystem) (p : Slot) (pc : SemPc) : SemSystem :=
  { s with pc := update s.pc p pc }

def SemSystem.view (s : SemSystem) (p : Slot) : SemView := ⟨s.sem, (s.proc p).osemaphore⟩

def SemSystem.setOsem (s : SemSystem) (p : Slot) (osem : OpenSems) : SemSystem :=
  { s with sched :=
    { s.sched with table := s.sched.table.modify p (fun q => { q with osemaphore := osem }) } }

def SemSystem.store (s : SemSystem) (p : Slot) (v : SemView) : SemSystem :=
  { s.setOsem p v.osem with sem := v.sem }

def SemSystem.record (s : SemSystem) (i : SemId) (f : SemHistory → SemHistory) : SemSystem :=
  { s with history := update s.history i (f (s.history i)) }

def SemSystem.onSched (s : SemSystem) (a : SchedAct) : Except Panic SemSystem := do
  let t ← s.sched.step a
  return { s with sched := t }

/-- The scheduler steps that are not a part of the steps below: calls of a process
that is in none of these functions, preemption of one that holds no lock, and what
the scheduler and interrupt handlers do. -/
def SemSystem.Admits (s : SemSystem) : SchedAct → Prop
  | .forkClaim p | .forkStack p _ | .kill p _ | .wait p | .setpriority p _ => s.pc p = .user
  | .forkCopy p got => s.pc p = .user ∧ got = false
  | .sleep p c => s.pc p = .user ∧ ∀ i, c ≠ .sem i
  | .yield p => (s.pc p).hasStable = false ∧ (s.pc p).hasPtable = false
  | .dispatch | .wakeup _ | .calculateaging => True
  | .exit _ => False

instance (s : SemSystem) : (a : SchedAct) → Decidable (s.Admits a)
  | .forkClaim _ | .forkStack _ _ | .kill _ _ | .wait _
  | .setpriority _ _ => inferInstanceAs (Decidable (_ = _))
  | .forkCopy _ _ => inferInstanceAs (Decidable (_ ∧ _))
  | .sleep _ _ => inferInstanceAs (Decidable (_ ∧ _))
  | .yield _ => inferInstanceAs (Decidable (_ ∧ _))
  | .dispatch | .wakeup _ | .calculateaging => isTrue trivial
  | .exit _ => isFalse id

inductive SemAct where
  | sched (a : SchedAct)
  | semget (p : Slot) (semid initvalue : Int)
  | semfree (p : Slot) (semid : Int)
  | semdown (p : Slot) (semid : Int)
  | downTest (p : Slot)
  | sleepRelease (p : Slot)
  | sleepSwitch (p : Slot)
  | reacquire (p : Slot)
  | semup (p : Slot) (semid : Int)
  | upWakeup (p : Slot)
  | forkDup (p : Slot)
  | exitClose (p : Slot)

def SemSystem.semget (s : SemSystem) (p : Slot) (semid initvalue : Int) : SemSystem :=
  let t := s.store p (MmapXv6.semget (s.view p) semid initvalue).2
  match semgetPlan (s.view p) semid with
  | .created _ i => t.record i (fun _ => { init := initvalue })
  | _ => t

/-- acquire(&stable.lock) and searchinprocess; without the semaphore, the lock is
released again. -/
def SemSystem.semdown (s : SemSystem) (p : Slot) (semid : Int) : SemSystem :=
  match searchinprocess (s.view p) semid with
  | none => s
  | some (_, i) => { s with stableLock := some p }.goto p (.downLoop i)

/-- The test of the loop of semdown. On a positive value the process takes it and
leaves; otherwise it calls sleep, which first needs ptable.lock. -/
def SemSystem.downTest (s : SemSystem) (p : Slot) : SemSystem :=
  match s.pc p with
  | .downLoop i =>
    if (s.sem i).value ≤ 0 then
      if s.ptableLock = none then { s with ptableLock := some p }.goto p (.sleepBoth i) else s
    else ({ s with sem := semdownValue s.sem i, stableLock := none }.record i
      (fun h => { h with downs := (s.proc p).pid :: h.downs })).goto p .user
  | _ => s

def SemSystem.sleepRelease (s : SemSystem) (p : Slot) : SemSystem :=
  match s.pc p with
  | .sleepBoth i => { s with stableLock := none }.goto p (.sleepOne i)
  | _ => s

/-- proc->chan = chan; proc->state = SLEEPING; sched(), where the scheduler releases
ptable.lock. -/
def SemSystem.sleepSwitch (s : SemSystem) (p : Slot) : Except Panic SemSystem :=
  match s.pc p with
  | .sleepOne i => if s.sched.Free p then do
      let t ← s.onSched (.sleep p (.sem i))
      return { t with ptableLock := none }.goto p (.asleep i)
    else .ok s
  | _ => .ok s

def SemSystem.reacquire (s : SemSystem) (p : Slot) : SemSystem :=
  match s.pc p with
  | .asleep i =>
    if (s.proc p).state = .running ∧ s.stableLock = none
    then { s with stableLock := some p }.goto p (.downLoop i) else s
  | _ => s

def SemSystem.semup (s : SemSystem) (p : Slot) (semid : Int) : SemSystem :=
  match searchinprocess (s.view p) semid with
  | none => s
  | some (_, i) => ({ s with sem := semupValue s.sem i }.record i
      (fun h => { h with ups := (s.proc p).pid :: h.ups })).goto p (.upWake i)

def SemSystem.upWakeup (s : SemSystem) (p : Slot) : Except Panic SemSystem :=
  match s.pc p with
  | .upWake i =>
    if (s.proc p).state = .running ∧ s.ptableLock = none then do
      let t ← s.onSched (.wakeup (.sem i))
      return t.goto p .user
    else .ok s
  | _ => .ok s

def SemSystem.dupOne (s : SemSystem) (p np : Slot) (k : Fin MAXPROCSEM) : Except Panic SemSystem :=
  match (s.proc p).osemaphore k with
  | none => .ok s
  | some i => do
    let sem ← semdup s.sem i
    return { s.setOsem np (update (s.proc np).osemaphore k (some i)) with sem := sem }

/-- The semaphore loop of fork, from the point where copyuvm has succeeded, and the
make_runnable after it. -/
def SemSystem.forkDup (s : SemSystem) (p : Slot) : Except Panic SemSystem :=
  match s.sched.fork p, s.pc p with
  | .ready _, .user => .ok (s.goto p (.dup 0))
  | .ready np, .dup k =>
    if h : k < MAXPROCSEM then
      if s.stableLock = none then do
        let t ← s.dupOne p np ⟨k, h⟩
        return t.goto p (.dup (k + 1))
      else .ok s
    else if s.ptableLock = none then do
      let t ← s.onSched (.forkCopy p true)
      return t.goto p .user
    else .ok s
  | _, _ => .ok s

def SemSystem.closeOne (s : SemSystem) (p : Slot) (k : Fin MAXPROCSEM) : Except Panic SemSystem :=
  match (s.proc p).osemaphore k with
  | none => .ok s
  | some i => do
    let sem ← semclose s.sem i
    return { s.setOsem p (update (s.proc p).osemaphore k none) with sem := sem }

def SemSystem.exitClose (s : SemSystem) (p : Slot) : Except Panic SemSystem :=
  match s.pc p with
  | .user =>
    if s.sched.Free p then
      if s.sched.table.initproc = some p then .error .initExiting else .ok (s.goto p (.closing 0))
    else .ok s
  | .closing k =>
    if (s.proc p).state = .running then
      if h : k < MAXPROCSEM then
        if s.stableLock = none then do
          let t ← s.closeOne p ⟨k, h⟩
          return t.goto p (.closing (k + 1))
        else .ok s
      else if s.ptableLock = none then do
        let t ← s.onSched (.exit p)
        return t.goto p .user
      else .ok s
    else .ok s
  | _ => .ok s

def SemSystem.step (s : SemSystem) : SemAct → Except Panic SemSystem
  | .sched a => if s.Admits a ∧ s.ptableLock = none then s.onSched a else .ok s
  | .semget p semid initvalue =>
    .ok (if s.Free p ∧ s.stableLock = none then s.semget p semid initvalue else s)
  | .semfree p semid =>
    .ok (if s.Free p ∧ s.stableLock = none then s.store p (semfree (s.view p) semid).2 else s)
  | .semdown p semid => .ok (if s.Free p ∧ s.stableLock = none then s.semdown p semid else s)
  | .downTest p => .ok (s.downTest p)
  | .sleepRelease p => .ok (s.sleepRelease p)
  | .sleepSwitch p => s.sleepSwitch p
  | .reacquire p => .ok (s.reacquire p)
  | .semup p semid => .ok (if s.Free p ∧ s.stableLock = none then s.semup p semid else s)
  | .upWakeup p => s.upWakeup p
  | .forkDup p => if (s.proc p).state = .running then s.forkDup p else .ok s
  | .exitClose p => s.exitClose p

def SemSystem.initial : SemSystem := { sched := Sched.initial }

def SemAct.InRange : SemAct → Prop
  | .sched a => a.InRange
  | _ => True

instance : (a : SemAct) → Decidable a.InRange
  | .sched a => inferInstanceAs (Decidable a.InRange)
  | .semget _ _ _ | .semfree _ _ | .semdown _ _ | .downTest _ | .sleepRelease _ | .sleepSwitch _
    | .reacquire _
  | .semup _ _ | .upWakeup _ | .forkDup _ | .exitClose _ => isTrue trivial

def SemSystem.Reached : SemSystem → Prop :=
  Reaches SemSystem.step (fun _ a => a.InRange) (· = SemSystem.initial)

end MmapXv6
