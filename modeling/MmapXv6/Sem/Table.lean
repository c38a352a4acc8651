import MmapXv6.Types
import MmapXv6.Lib.Run
import Mathlib.Data.Int.ModEq

/-! The functions of semaphore.c, each on what it reads and writes under stable.lock:
the table of the system and the open semaphores of the calling process. -/
namespace MmapXv6

open Function

abbrev SemId := Fin MAXSEM

abbrev OpenSems := Fin MAXPROCSEM → Option SemId

structure SemView where
  sem : SemId → Semaphore
  osem : OpenSems

def setSem (sem : SemId → Semaphore) (s : SemId) (f : Semaphore → Semaphore) : SemId → Semaphore :=
  update sem s (f (sem s))

def allocinprocess (osem : OpenSems) : Option (Fin MAXPROCSEM) :=
  (List.finRange MAXPROCSEM).find? (fun k => osem k = none)

def opens (v : SemView) (id : Int) (k : Fin MAXPROCSEM) : Bool :=
  match v.osem k with
  | some s => (v.sem s).id = id
  | none => false

def searchinprocess (v : SemView) (id : Int) : Option (Fin MAXPROCSEM × SemId) :=
  match (List.finRange MAXPROCSEM).find? (opens v id) with
  | some k => (v.osem k).map (fun s => (k, s))
  | none => none

def allocinsystem (sem : SemId → Semaphore) : Option SemId :=
  (List.finRange MAXSEM).find? (fun s => (sem s).references = 0)

/-- The loop of semget over stable.sem for semid >= 0: a semaphore, or the code. -/
def lookup (sem : SemId → Semaphore) (semid : Int) : Except Int SemId :=
  match (List.finRange MAXSEM).find? (fun s => (sem s).id = semid ∧ 0 ≤ (sem s).references) with
  | none => .error (-5)
  | some s => if 0 < (sem s).references then .ok s else .error (-1)

def SemView.attach (v : SemView) (position : Fin MAXPROCSEM) (s : SemId) : SemView where
  sem := setSem v.sem s (fun x => { x with references := x.references + 1 })
  osem := update v.osem position (some s)

def SemView.create (v : SemView) (s : SemId) (initvalue : Int) : SemView :=
  { v with sem := setSem v.sem s (fun x => { x with id := s, value := initvalue }) }

inductive GetResult where
  | failed (code : Int)
  | created (position : Fin MAXPROCSEM) (s : SemId)
  | opened (position : Fin MAXPROCSEM) (s : SemId)
  deriving DecidableEq, Repr

def semgetPlan (v : SemView) (semid : Int) : GetResult :=
  if semid < -1 ∨ semid ≥ MAXSEM then .failed (-4)
  else match allocinprocess v.osem with
    | none => .failed (-2)
    | some position =>
      if semid = -1 then
        match allocinsystem v.sem with
        | none => .failed (-3)
        | some s => .created position s
      else
        match lookup v.sem semid with
        | .error code => .failed code
        | .ok s => .opened position s

def semget (v : SemView) (semid initvalue : Int) : Int × SemView :=
  match semgetPlan v semid with
  | .failed code => (code, v)
  | .created position s => (s, (v.create s initvalue).attach position s)
  | .opened position s => ((v.sem s).id, v.attach position s)

def semfree (v : SemView) (semid : Int) : Int × SemView :=
  match searchinprocess v semid with
  | none => (-1, v)
  | some (pos, s) =>
    if (v.sem s).references < 1 then (-2, v)
    else (0, { sem := setSem v.sem s (fun x => { x with references := x.references - 1 })
               osem := update v.osem pos none })

def incr (x : Int) : Int := (x + 1).bmod (2 ^ 32)

def semupValue (sem : SemId → Semaphore) (s : SemId) : SemId → Semaphore :=
  setSem sem s (fun x => { x with value := incr x.value })

def semdownValue (sem : SemId → Semaphore) (s : SemId) : SemId → Semaphore :=
  setSem sem s (fun x => { x with value := x.value - 1 })

def semclose (sem : SemId → Semaphore) (s : SemId) : Except Panic (SemId → Semaphore) :=
  if (sem s).references < 1 then .error .semclose
  else .ok (setSem sem s (fun x => { x with references := x.references - 1 }))

def semdup (sem : SemId → Semaphore) (s : SemId) : Except Panic (SemId → Semaphore) :=
  if (sem s).references < 0 then .error .semdup
  else .ok (setSem sem s (fun x => { x with references := x.references + 1 }))

@[simp] theorem setSem_self (sem : SemId → Semaphore) (s : SemId) (f : Semaphore → Semaphore) :
    setSem sem s f s = f (sem s) := update_self _ _ _

theorem setSem_ne (sem : SemId → Semaphore) {s i : SemId} (f : Semaphore → Semaphore) (h : i ≠ s) :
    setSem sem s f i = sem i := update_of_ne h _ _

theorem allocinprocess_some {osem : OpenSems} {k : Fin MAXPROCSEM}
    (h : allocinprocess osem = some k) : osem k = none := by
  simpa using List.find?_some h

theorem allocinsystem_some {sem : SemId → Semaphore} {s : SemId} (h : allocinsystem sem = some s) :
    (sem s).references = 0 := by
  simpa using List.find?_some h

theorem searchinprocess_some {v : SemView} {id : Int} {k : Fin MAXPROCSEM} {s : SemId}
    (h : searchinprocess v id = some (k, s)) : v.osem k = some s := by
  unfold searchinprocess at h
  split at h
  · rename_i j _
    obtain ⟨x, hx, e⟩ := Option.map_eq_some_iff.mp h
    cases e
    exact hx
  · cases h

theorem lookup_ok {sem : SemId → Semaphore} {semid : Int} {s : SemId}
    (h : lookup sem semid = .ok s) : 0 < (sem s).references := by
  unfold lookup at h
  split at h
  · cases h
  · split at h
    · rename_i used
      cases h
      exact used
    · cases h

/-- A semget that succeeds found a free place, and either a semaphore without
references or one that is in use. -/
def GetResult.Fits (v : SemView) : GetResult → Prop
  | .failed _ => True
  | .created k s => v.osem k = none ∧ (v.sem s).references = 0
  | .opened k s => v.osem k = none ∧ 0 < (v.sem s).references

theorem semgetPlan_fits (v : SemView) (semid : Int) : (semgetPlan v semid).Fits v := by
  unfold semgetPlan
  split
  · trivial
  split
  · trivial
  rename_i k free
  have place := allocinprocess_some free
  split
  · split
    · trivial
    · rename_i s found
      exact ⟨place, allocinsystem_some found⟩
  · split
    · trivial
    · rename_i s found
      exact ⟨place, lookup_ok found⟩

end MmapXv6
