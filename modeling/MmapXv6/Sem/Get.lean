import MmapXv6.Sem.Steps

/-! The answers of semget. The id of a semaphore is written when it is first created and
stays; before that it is 0, the id of the first one. So the loop over the table finds an
id that was created once at its own index, and any other one above 0 nowhere. -/
namespace MmapXv6

open Lib Function

structure SemIds (s : SemSystem) : Prop where
  ids : ∀ i, (s.sem i).id = i ∨ (s.sem i).id = 0 ∧ (s.sem i).references = 0
  refs : ∀ i, 0 ≤ (s.sem i).references
  held : ∀ p k i, (s.proc p).osemaphore k = some i → (s.sem i).id = i

section Steps
variable {s t : SemSystem} {p : Slot} {i : SemId}

theorem SemIds.congr (h : SemIds s) (id : ∀ j, (t.sem j).id = (s.sem j).id)
    (refs : ∀ j, (t.sem j).references = (s.sem j).references)
    (osem : ∀ q, (t.proc q).osemaphore = (s.proc q).osemaphore) : SemIds t := by
  constructor
  · intro j
    rw [id, refs]
    exact h.ids j
  · intro j
    rw [refs]
    exact h.refs j
  · intro q k j entry
    rw [osem] at entry
    rw [id]
    exact h.held q k j entry

theorem SemIds.change (h : SemIds s) (id : (t.sem i).id = i) (refs : 0 ≤ (t.sem i).references)
    (other : ∀ j, j ≠ i → t.sem j = s.sem j)
    (osem : ∀ q k j, (t.proc q).osemaphore k = some j → (s.proc q).osemaphore k = some j ∨ j = i) :
    SemIds t := by
  constructor
  · intro j
    by_cases same : j = i
    · exact .inl (same ▸ id)
    · rw [other j same]
      exact h.ids j
  · intro j
    by_cases same : j = i
    · exact same ▸ refs
    · rw [other j same]
      exact h.refs j
  · intro q k j entry
    by_cases same : j = i
    · exact same ▸ id
    · rw [other j same]
      exact h.held q k j ((osem q k j entry).resolve_right same)

theorem setOsem_entry {osem : OpenSems} {k : Fin MAXPROCSEM} {v : Option SemId} {q : Slot}
    {m : Fin MAXPROCSEM} {j : SemId}
    (new : osem = update (s.proc p).osemaphore k v)
    (entry : ((s.setOsem p osem).proc q).osemaphore m = some j) :
    (s.proc q).osemaphore m = some j ∨ v = some j := by
  by_cases same : q = p
  · subst same
    rw [setOsem_self, new] at entry
    dsimp only at entry
    rw [update_apply] at entry
    split at entry
    · exact .inr entry
    · exact .inl entry
  · rw [setOsem_proc_ne same] at entry
    exact .inl entry

theorem SemIds.onSched (h : SemIds s) {a : SchedAct} (done : s.onSched a = .ok t) : SemIds t := by
  obtain ⟨u, stepped, eq⟩ := bind_ok.mp done
  cases eq
  exact h.congr (fun _ => rfl) (fun _ => rfl) (Sched.step_frame stepped).osemaphore

theorem SemIds.semget (h : SemIds s) (semid initvalue : Int) :
    SemIds (s.semget p semid initvalue) := by
  have fits := semgetPlan_fits (s.view p) semid
  unfold SemSystem.semget MmapXv6.semget
  cases plan : semgetPlan (s.view p) semid with
  | failed code =>
    dsimp only
    rw [store_view]
    exact h
  | created k i =>
    rw [plan] at fits
    have none : (s.sem i).references = 0 := fits.2
    dsimp only
    refine h.change (i := i) ?_ ?_ ?_ ?_
    · simp [SemSystem.record, SemSystem.store, SemView.attach, SemView.create]
    · simp [SemSystem.record, SemSystem.store, SemView.attach, SemView.create, SemSystem.view, none]
    · intro j ne
      simp [SemSystem.record, SemSystem.store, SemView.attach, SemView.create, setSem_ne _ _ ne,
        SemSystem.view]
    · intro q m j entry
      exact (setOsem_entry rfl entry).imp_right fun same => (Option.some.inj same).symm
  | opened k i =>
    rw [plan] at fits
    have used : 0 < (s.sem i).references := fits.2
    dsimp only
    refine h.change (i := i) ?_ ?_ ?_ ?_
    · simp only [SemSystem.store, SemView.attach, SemSystem.view, setSem_self]
      exact (h.ids i).resolve_right fun never => by omega
    · simp only [SemSystem.store, SemView.attach, SemSystem.view, setSem_self]
      omega
    · intro j ne
      simp only [SemSystem.store, SemView.attach, SemSystem.view, setSem_ne _ _ ne]
    · intro q m j entry
      exact (setOsem_entry rfl entry).imp_right fun same => (Option.some.inj same).symm

theorem SemIds.drop (h : SemIds s) {k : Fin MAXPROCSEM} (held : (s.proc p).osemaphore k = some i)
    (used : ¬(s.sem i).references < 1) :
    SemIds { s.setOsem p (update (s.proc p).osemaphore k none) with
      sem := setSem s.sem i fun x => { x with references := x.references - 1 } } := by
  refine h.change (i := i) ?_ ?_ ?_ ?_
  · simp only [setSem_self]
    exact h.held p k i held
  · simp only [setSem_self]
    omega
  · intro j ne
    simp only [setSem_ne _ _ ne]
  · intro q m j entry
    rcases setOsem_entry rfl entry with old | new
    · exact .inl old
    · cases new

theorem SemIds.semfree (h : SemIds s) (semid : Int) : SemIds
    (s.store p (semfree (s.view p) semid).2) := by
  unfold MmapXv6.semfree
  split
  · rw [store_view]
    exact h
  · rename_i k i found
    split
    · rw [store_view]
      exact h
    · rename_i used
      exact h.drop (searchinprocess_some found) used

theorem SemIds.dupOne (h : SemIds s) {np : Slot} {k : Fin MAXPROCSEM}
    (done : s.dupOne p np k = .ok t) : SemIds t := by
  unfold SemSystem.dupOne at done
  split at done
  · cases done
    exact h
  · rename_i i held
    obtain ⟨sem, dup, eq⟩ := bind_ok.mp done
    cases eq
    unfold semdup at dup
    split at dup
    · cases dup
    · cases dup
      have low := h.refs i
      refine h.change (i := i) ?_ ?_ ?_ ?_
      · simp only [setSem_self]
        exact h.held p k i held
      · simp only [setSem_self]
        omega
      · intro j ne
        simp only [setSem_ne _ _ ne]
      · intro q m j entry
        exact (setOsem_entry rfl entry).imp_right fun same => (Option.some.inj same).symm

theorem SemIds.closeOne (h : SemIds s) {k : Fin MAXPROCSEM} (done : s.closeOne p k = .ok t) :
    SemIds t := by
  unfold SemSystem.closeOne at done
  split at done
  · cases done
    exact h
  · rename_i i held
    obtain ⟨sem, closed, eq⟩ := bind_ok.mp done
    cases eq
    unfold semclose at closed
    split at closed
    · cases closed
    · rename_i used
      cases closed
      exact h.drop held used

theorem SemIds.revalue (h : SemIds s) (i : SemId) (f : Int → Int) :
    SemIds { s with sem := setSem s.sem i fun x => { x with value := f x.value } } := by
  have same : ∀ j, (setSem s.sem i (fun x => { x with value := f x.value }) j).id = (s.sem j).id ∧
      (setSem s.sem i (fun x => { x with value := f x.value }) j).references =
        (s.sem j).references := by
    intro j
    by_cases here : j = i
    · rw [here, setSem_self]
      exact ⟨rfl, rfl⟩
    · rw [setSem_ne _ _ here]
      exact ⟨rfl, rfl⟩
  exact h.congr (fun j => (same j).1) (fun j => (same j).2) (fun _ => rfl)

theorem SemIds.goto (h : SemIds s) (pc : SemPc) : SemIds (s.goto p pc) :=
  h.congr (fun _ => rfl) (fun _ => rfl) (fun _ => rfl)

theorem SemIds.downTest (h : SemIds s) : SemIds (s.downTest p) := by
  unfold SemSystem.downTest
  split
  · split
    · split
      · exact h.congr (fun _ => rfl) (fun _ => rfl) (fun _ => rfl)
      · exact h
    · rename_i i _ _
      exact (h.revalue i (fun v => v - 1)).congr (fun _ => rfl) (fun _ => rfl) (fun _ => rfl)
  · exact h

theorem SemIds.forkDup (h : SemIds s) (done : s.forkDup p = .ok t) : SemIds t := by
  unfold SemSystem.forkDup at done
  split at done
  · cases done
    exact h.goto _
  · split at done
    · split at done
      · obtain ⟨u, dup, eq⟩ := bind_ok.mp done
        cases eq
        exact (h.dupOne dup).goto _
      · cases done
        exact h
    · split at done
      · obtain ⟨u, copied, eq⟩ := bind_ok.mp done
        cases eq
        exact (h.onSched copied).goto _
      · cases done
        exact h
  · cases done
    exact h

theorem SemIds.exitClose (h : SemIds s) (done : s.exitClose p = .ok t) : SemIds t := by
  unfold SemSystem.exitClose at done
  split at done
  · split at done
    · split at done
      · cases done
      · cases done
        exact h.goto _
    · cases done
      exact h
  · split at done
    · split at done
      · split at done
        · obtain ⟨u, closed, eq⟩ := bind_ok.mp done
          cases eq
          exact (h.closeOne closed).goto _
        · cases done
          exact h
      · split at done
        · obtain ⟨u, exited, eq⟩ := bind_ok.mp done
          cases eq
          exact (h.onSched exited).goto _
        · cases done
          exact h
    · cases done
      exact h
  · cases done
    exact h

theorem SemIds.sleepSwitch (h : SemIds s) (done : s.sleepSwitch p = .ok t) : SemIds t := by
  unfold SemSystem.sleepSwitch at done
  split at done
  · split at done
    · obtain ⟨u, slept, eq⟩ := bind_ok.mp done
      cases eq
      exact (h.onSched slept).congr (fun _ => rfl) (fun _ => rfl) (fun _ => rfl)
    · cases done
      exact h
  · cases done
    exact h

theorem SemIds.upWakeup (h : SemIds s) (done : s.upWakeup p = .ok t) : SemIds t := by
  unfold SemSystem.upWakeup at done
  split at done
  · split at done
    · obtain ⟨u, woken, eq⟩ := bind_ok.mp done
      cases eq
      exact (h.onSched woken).goto _
    · cases done
      exact h
  · cases done
    exact h

theorem SemIds.step (h : SemIds s) {a : SemAct} (done : s.step a = .ok t) : SemIds t := by
  cases a with
  | sched a =>
    simp only [SemSystem.step] at done
    split at done
    · exact h.onSched done
    · cases done
      exact h
  | semget p semid initvalue =>
    cases done
    split
    · exact h.semget semid initvalue
    · exact h
  | semfree p semid =>
    cases done
    split
    · exact h.semfree semid
    · exact h
  | semdown p semid =>
    cases done
    unfold SemSystem.semdown
    split
    · split
      · exact h
      · exact h.congr (fun _ => rfl) (fun _ => rfl) (fun _ => rfl)
    · exact h
  | downTest p =>
    cases done
    exact h.downTest
  | sleepRelease p =>
    cases done
    unfold SemSystem.sleepRelease
    split
    · exact h.congr (fun _ => rfl) (fun _ => rfl) (fun _ => rfl)
    · exact h
  | sleepSwitch p => exact h.sleepSwitch done
  | reacquire p =>
    cases done
    unfold SemSystem.reacquire
    split
    · split
      · exact h.congr (fun _ => rfl) (fun _ => rfl) (fun _ => rfl)
      · exact h
    · exact h
  | semup p semid =>
    cases done
    unfold SemSystem.semup
    split
    · split
      · exact h
      · rename_i k i _
        exact (h.revalue i incr).congr (fun _ => rfl) (fun _ => rfl) (fun _ => rfl)
    · exact h
  | upWakeup p => exact h.upWakeup done
  | forkDup p =>
    simp only [SemSystem.step] at done
    split at done
    · exact h.forkDup done
    · cases done
      exact h
  | exitClose p => exact h.exitClose done

end Steps

theorem SemIds.initial : SemIds SemSystem.initial := by
  have noEntry : ∀ p k, (SemSystem.initial.proc p).osemaphore k = none := by decide +kernel
  refine ⟨fun i => .inr ⟨rfl, rfl⟩, fun i => Int.le_refl 0, fun p k i entry => ?_⟩
  rw [noEntry] at entry
  cases entry

def SemSystem.Reachable : SemSystem → Prop :=
  Reaches SemSystem.step (fun _ _ => True) (· = SemSystem.initial)

theorem SemSystem.Reachable.ids {s : SemSystem} (run : s.Reachable) : SemIds s :=
  Reaches.invariant SemIds (by rintro _ rfl; exact .initial) (fun _ _ _ h _ done => h.step done) run

/-- The answer of semget and the two tables after it, as the comment of the source has
them: -1 for every semaphore that is not in use. -/
def Documented (v : SemView) (semid initvalue : Int) (r : Int × SemView) : Prop :=
  if semid < -1 ∨ semid ≥ MAXSEM then r = (-4, v)
  else if ∀ k, v.osem k ≠ none then r = (-2, v)
  else if semid = -1 then
    (∀ s, (v.sem s).references ≠ 0) ∧ r = (-3, v) ∨
    ∃ s k, (v.sem s).references = 0 ∧ v.osem k = none ∧
      r = ((s : Int), ⟨update v.sem s ⟨s, 1, initvalue⟩, update v.osem k (some s)⟩)
  else
    ∃ s : SemId, (s : Int) = semid ∧
      ((v.sem s).references = 0 ∧ r = (-1, v) ∨
       0 < (v.sem s).references ∧ ∃ k, v.osem k = none ∧
        r = (semid, ⟨setSem v.sem s (fun x => { x with references := x.references + 1 }),
          update v.osem k (some s)⟩))

section Lookup
variable {s : SemSystem} {i j : SemId}

theorem SemIds.index (h : SemIds s) (found : (s.sem j).id = i) : j = i ∨ (i : Int) = 0 := by
  rcases h.ids j with own | ⟨zero, -⟩
  · have same : (j : Int) = i := own.symm.trans found
    exact .inl (Fin.ext (by omega))
  · exact .inr (found.symm.trans zero)

theorem SemIds.zero (h : SemIds s) (zero : (i : Int) = 0) : (s.sem i).id = i :=
  (h.ids i).elim id fun never => never.1.trans zero.symm

theorem SemIds.lookup_own (h : SemIds s) (own : (s.sem i).id = i) :
    lookup s.sem i = if 0 < (s.sem i).references then .ok i else .error (-1) := by
  have found : (List.finRange MAXSEM).find? (fun j => (s.sem j).id = i ∧ 0 ≤ (s.sem j).references) =
      some i := by
    rw [List.find?_eq_some_iff_getElem]
    refine ⟨by simpa using ⟨own, h.refs i⟩, i, by simp, by simp, fun j low => ?_⟩
    simp only [List.getElem_finRange, Bool.not_eq_eq_eq_not, Bool.not_true, decide_eq_false_iff_not]
    rintro ⟨same, -⟩
    rcases h.index same with equal | zero
    · have := congrArg Fin.val equal
      simp at this
      omega
    · omega
  unfold lookup
  rw [found]

theorem SemIds.lookup_never (h : SemIds s) (never : (s.sem i).id ≠ i) :
    lookup s.sem i = .error (-5) := by
  have missing : (List.finRange MAXSEM).find?
      (fun j => (s.sem j).id = i ∧ 0 ≤ (s.sem j).references) = none := by
    rw [List.find?_eq_none]
    intro j _
    simp only [decide_eq_true_eq]
    rintro ⟨same, -⟩
    rcases h.index same with rfl | zero
    · exact never same
    · exact never (h.zero zero)
  unfold lookup
  rw [missing]

end Lookup

theorem allocinprocess_none {osem : OpenSems} (h : allocinprocess osem = none)
    (k : Fin MAXPROCSEM) : osem k ≠ none := by
  simpa using List.find?_eq_none.mp h k (List.mem_finRange k)

theorem allocinsystem_none {sem : SemId → Semaphore} (h : allocinsystem sem = none) (s : SemId) :
    (sem s).references ≠ 0 := by
  simpa using List.find?_eq_none.mp h s (List.mem_finRange s)

/-- In every reachable state semget answers as documented, except for an id above 0 that
no semget has created yet, for which a process with a free entry gets -5. -/
theorem semget_as_documented {s : SemSystem} (run : s.Reachable) (p : Slot)
    (semid initvalue : Int) :
    Documented (s.view p) semid initvalue (semget (s.view p) semid initvalue) ↔
      ∀ i : SemId, (i : Int) = semid → (∃ k, (s.proc p).osemaphore k = none) →
      (s.sem i).id = i := by
  have ids := run.ids
  unfold Documented semget semgetPlan
  by_cases range : semid < -1 ∨ semid ≥ MAXSEM
  · rw [if_pos range, if_pos range]
    refine ⟨fun _ i same _ => ?_, fun _ => rfl⟩
    have := i.isLt
    omega
  rw [if_neg range, if_neg range]
  cases place : allocinprocess (s.view p).osem with
  | none =>
    have full := allocinprocess_none place
    rw [if_pos full]
    exact ⟨fun _ i _ free => absurd free.choose_spec (full _), fun _ => rfl⟩
  | some k =>
    have free := allocinprocess_some place
    rw [if_neg (fun full => full k free)]
    by_cases new : semid = -1
    · rw [if_pos new]
      refine ⟨fun _ i same _ => by omega, fun _ => ?_⟩
      dsimp only
      rw [if_pos new]
      cases found : allocinsystem (s.view p).sem with
      | none => exact .inl ⟨allocinsystem_none found, rfl⟩
      | some i =>
        have unused := allocinsystem_some found
        refine .inr ⟨i, k, unused, free, ?_⟩
        change ((i : Int), ((s.view p).create i initvalue).attach k i) = _
        have sem : (((s.view p).create i initvalue).attach k i).sem =
            update (s.view p).sem i ⟨i, 1, initvalue⟩ := by
          simp [SemView.attach, SemView.create, setSem, unused]
        rw [← sem]
        rfl
    · rw [if_neg new]
      obtain ⟨i, same⟩ : ∃ i : SemId, (i : Int) = semid :=
        ⟨⟨semid.toNat, by omega⟩, Int.toNat_of_nonneg (by omega)⟩
      subst same
      dsimp only
      rw [if_neg new]
      by_cases own : (s.sem i).id = i
      · refine ⟨fun _ j same _ => ?_, fun _ => ⟨i, rfl, ?_⟩⟩
        · obtain rfl : j = i := Fin.ext (by omega)
          exact own
        · rw [show lookup (s.view p).sem i = _ from ids.lookup_own own]
          by_cases used : 0 < (s.sem i).references
          · rw [if_pos used]
            exact .inr ⟨used, k, free, congrArg (·, _) own⟩
          · rw [if_neg used]
            have low := ids.refs i
            exact .inl ⟨show (s.sem i).references = 0 by omega, rfl⟩
      · rw [show lookup (s.view p).sem i = _ from ids.lookup_never own]
        refine ⟨fun answer => ?_, fun created => absurd (created i rfl ⟨k, free⟩) own⟩
        obtain ⟨j, -, ⟨-, wrong⟩ | ⟨-, m, -, wrong⟩⟩ := answer
        · cases congrArg Prod.fst wrong
        · have := congrArg Prod.fst wrong
          dsimp only at this
          omega

/-- The first process has created semaphore 0, and opens it once more. -/
theorem semget_as_documented_again :
    ∃ s : SemSystem, s.Reachable ∧ Documented (s.view 0) 0 7 (semget (s.view 0) 0 7) := by
  have start : SemSystem.initial.Reachable := .start rfl
  obtain ⟨s, run, created⟩ := start.exists_of_follow [.sched .dispatch, .semget 0 (-1) 1]
    (fun s => (s.sem 0).id = 0) (by decide +kernel)
  refine ⟨s, run, (semget_as_documented run 0 0 7).mpr fun i same _ => ?_⟩
  obtain rfl : i = 0 := Fin.ext (by simpa using same)
  exact of_decide_eq_true created

/-- Semaphore 3 is not in use after boot, and semget(3, 0) does not answer -1. -/
theorem semget_three_after_boot :
    ∃ s : SemSystem, s.Reachable ∧ (s.proc 0).state = .running ∧ (s.sem 3).references = 0 ∧
      (semget (s.view 0) 3 0).1 = -5 ∧ ¬Documented (s.view 0) 3 0 (semget (s.view 0) 3 0) := by
  have start : SemSystem.initial.Reachable := .start rfl
  obtain ⟨s, run, passed⟩ := start.exists_of_follow [.sched .dispatch]
    (fun s => (s.proc 0).state = .running ∧ (s.sem 3).references = 0 ∧
      (s.proc 0).osemaphore 0 = none ∧ (semget (s.view 0) 3 0).1 = -5) (by decide +kernel)
  obtain ⟨running, unused, free, code⟩ := of_decide_eq_true passed
  refine ⟨s, run, running, unused, code, fun documented => ?_⟩
  unfold Documented at documented
  rw [if_neg (by decide), if_neg (fun full => full 0 free), if_neg (by decide)] at documented
  obtain ⟨j, -, ⟨-, answer⟩ | ⟨-, k, -, answer⟩⟩ := documented
  · rw [answer] at code
    cases code
  · rw [answer] at code
    cases code

end MmapXv6
