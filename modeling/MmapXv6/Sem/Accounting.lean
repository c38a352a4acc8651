import MmapXv6.Sem.System
import Mathlib.Algebra.Order.Sub.Basic
import Mathlib.Data.Multiset.AddSub

/-! The value of a semaphore against the history of its semups and semdowns. Only four
things ever happen to a value: nothing, its creation, an increment and a decrement of
a positive one. -/
namespace MmapXv6

open Lib
open Function (update_of_ne update_self)

variable {t : SemSystem}

inductive Counted (a : SemAct) (s t : SemSystem) (i : SemId) : Prop where
  | same : (t.sem i).value = (s.sem i).value → t.history i = s.history i → Counted a s t i
  | created (v : Int) : (t.sem i).value = v → t.history i = { init := v } → Counted a s t i
  | up (p : Slot) (semid : Int) (k : Fin MAXPROCSEM) : a = .semup p semid →
      searchinprocess (s.view p) semid = some (k, i) → (t.sem i).value = incr (s.sem i).value →
      t.history i = { s.history i with ups := (s.proc p).pid :: (s.history i).ups } →
        Counted a s t i
  | down (p : Slot) : 0 < (s.sem i).value → (t.sem i).value = (s.sem i).value - 1 →
      t.history i = { s.history i with downs := (s.proc p).pid :: (s.history i).downs } →
        Counted a s t i

section Steps
variable {a : SemAct} {s : SemSystem} {i : SemId} {p : Slot}

theorem Counted.refl : Counted a s s i := .same rfl rfl

theorem setSem_value (sem : SemId → Semaphore) (j : SemId) {f : Semaphore → Semaphore}
    (same : ∀ x, (f x).value = x.value) : (setSem sem j f i).value = (sem i).value := by
  by_cases e : i = j
  · subst e; simpa using same _
  · rw [setSem_ne _ _ e]

theorem onSched_counted {b : SchedAct} (h : s.onSched b = .ok t) :
    t.sem = s.sem ∧ t.history = s.history := by
  rw [SemSystem.onSched, bind_ok] at h
  obtain ⟨u, _, h⟩ := h
  cases h
  exact ⟨rfl, rfl⟩

theorem semdownValue_ne {sem : SemId → Semaphore} {j : SemId} (h : i ≠ j) :
    semdownValue sem j i = sem i :=
  setSem_ne sem (fun x => { x with value := x.value - 1 }) h

theorem semupValue_ne {sem : SemId → Semaphore} {j : SemId} (h : i ≠ j) :
    semupValue sem j i = sem i :=
  setSem_ne sem (fun x => { x with value := incr x.value }) h

theorem semget_counted (semid initvalue : Int) : Counted a s (s.semget p semid initvalue) i := by
  have attached : ∀ (sem : SemId → Semaphore) (j : SemId),
      (setSem sem j (fun x => { x with references := x.references + 1 }) i).value = (sem i).value :=
    fun sem j => setSem_value sem j (fun _ => rfl)
  unfold SemSystem.semget MmapXv6.semget
  cases semgetPlan (s.view p) semid <;> dsimp only
  case failed code => exact .same rfl rfl
  case created k j =>
    by_cases e : i = j
    · subst e
      refine .created initvalue ((attached _ _).trans ?_) (update_self _ _ _)
      exact congrArg Semaphore.value (setSem_self s.sem i _)
    · refine .same ((attached _ _).trans ?_) (update_of_ne e _ _)
      exact congrArg Semaphore.value
        (setSem_ne s.sem (fun x => { x with id := j, value := initvalue }) e)
  case opened k j => exact .same (attached _ _) rfl

theorem semfree_counted (semid : Int) : Counted a s (s.store p (semfree (s.view p) semid).2) i := by
  unfold MmapXv6.semfree
  split
  · exact .same rfl rfl
  · split
    · exact .same rfl rfl
    · exact .same (setSem_value s.sem _ (fun _ => rfl)) rfl

theorem semdown_counted (semid : Int) : Counted a s (s.semdown p semid) i := by
  unfold SemSystem.semdown
  split
  · exact .refl
  · exact .same rfl rfl

theorem downTest_counted : Counted a s (s.downTest p) i := by
  unfold SemSystem.downTest
  split
  · rename_i j _
    split
    · split
      · exact .same rfl rfl
      · exact .refl
    · rename_i positive
      by_cases e : i = j
      · subst e
        refine .down p (not_le.mp positive) ?_ (update_self _ _ _)
        exact congrArg Semaphore.value (setSem_self s.sem i _)
      · exact .same (congrArg Semaphore.value (semdownValue_ne e)) (update_of_ne e _ _)
  · exact .refl

theorem semup_counted (semid : Int) : Counted (.semup p semid) s (s.semup p semid) i := by
  unfold SemSystem.semup
  split
  · exact .refl
  · rename_i k j found
    by_cases e : i = j
    · subst e
      exact .up p semid k rfl found (congrArg Semaphore.value (setSem_self s.sem i _))
        (update_self _ _ _)
    · exact .same (congrArg Semaphore.value (semupValue_ne e)) (update_of_ne e _ _)

theorem dupOne_counted {np : Slot} {k : Fin MAXPROCSEM} (h : s.dupOne p np k = .ok t) :
    (t.sem i).value = (s.sem i).value ∧ t.history = s.history := by
  unfold SemSystem.dupOne at h
  split at h
  · cases h; exact ⟨rfl, rfl⟩
  · rw [bind_ok] at h
    obtain ⟨sem, hsem, h⟩ := h
    cases h
    unfold semdup at hsem
    split at hsem
    · cases hsem
    · cases hsem; exact ⟨setSem_value s.sem _ (fun _ => rfl), rfl⟩

theorem closeOne_counted {k : Fin MAXPROCSEM} (h : s.closeOne p k = .ok t) :
    (t.sem i).value = (s.sem i).value ∧ t.history = s.history := by
  unfold SemSystem.closeOne at h
  split at h
  · cases h; exact ⟨rfl, rfl⟩
  · rw [bind_ok] at h
    obtain ⟨sem, hsem, h⟩ := h
    cases h
    unfold semclose at hsem
    split at hsem
    · cases hsem
    · cases hsem; exact ⟨setSem_value s.sem _ (fun _ => rfl), rfl⟩

theorem Counted.bind {r : Except Panic SemSystem} {f : SemSystem → SemSystem}
    (h : (do let u ← r; return f u) = .ok t)
    (kept : ∀ u, r = .ok u → (u.sem i).value = (s.sem i).value ∧ u.history = s.history)
    (moves : ∀ u, (f u).sem = u.sem ∧ (f u).history = u.history) : Counted a s t i := by
  rw [bind_ok] at h
  obtain ⟨u, hu, h⟩ := h
  cases h
  refine .same ?_ ?_
  · rw [(moves u).1]; exact (kept u hu).1
  · rw [(moves u).2, (kept u hu).2]

theorem onSched_bind_counted {b : SchedAct} {f : SemSystem → SemSystem}
    (h : (do let u ← s.onSched b; return f u) = .ok t)
    (moves : ∀ u, (f u).sem = u.sem ∧ (f u).history = u.history) : Counted a s t i :=
  .bind h (fun _ hu => ⟨congrArg (fun sem => (sem i).value) (onSched_counted hu).1,
    (onSched_counted hu).2⟩) moves

theorem forkDup_counted (h : s.forkDup p = .ok t) : Counted a s t i := by
  unfold SemSystem.forkDup at h
  split at h
  · cases h; exact .same rfl rfl
  · split at h
    · split at h
      · exact .bind h (fun _ => dupOne_counted) (fun _ => ⟨rfl, rfl⟩)
      · cases h; exact .refl
    · split at h
      · exact onSched_bind_counted h (fun _ => ⟨rfl, rfl⟩)
      · cases h; exact .refl
  · cases h; exact .refl

theorem exitClose_counted (h : s.exitClose p = .ok t) : Counted a s t i := by
  unfold SemSystem.exitClose at h
  split at h
  · split at h
    · split at h
      · cases h
      · cases h; exact .same rfl rfl
    · cases h; exact .refl
  · split at h
    · split at h
      · split at h
        · exact .bind h (fun _ => closeOne_counted) (fun _ => ⟨rfl, rfl⟩)
        · cases h; exact .refl
      · split at h
        · exact onSched_bind_counted h (fun _ => ⟨rfl, rfl⟩)
        · cases h; exact .refl
    · cases h; exact .refl
  · cases h; exact .refl

theorem sleepSwitch_counted (h : s.sleepSwitch p = .ok t) : Counted a s t i := by
  unfold SemSystem.sleepSwitch at h
  split at h
  · split at h
    · exact onSched_bind_counted h (fun _ => ⟨rfl, rfl⟩)
    · cases h; exact .refl
  · cases h; exact .refl

theorem upWakeup_counted (h : s.upWakeup p = .ok t) : Counted a s t i := by
  unfold SemSystem.upWakeup at h
  split at h
  · split at h
    · exact onSched_bind_counted h (fun _ => ⟨rfl, rfl⟩)
    · cases h; exact .refl
  · cases h; exact .refl

theorem SemSystem.step_counted (h : s.step a = .ok t) (i : SemId) :
    Counted a s t i := by
  cases a with
  | sched a =>
    simp only [SemSystem.step] at h
    split at h
    · obtain ⟨sem, history⟩ := onSched_counted h
      exact .same (by rw [sem]) (by rw [history])
    · cases h; exact .refl
  | semget p semid initvalue =>
    cases h
    split
    · exact semget_counted semid initvalue
    · exact .refl
  | semfree p semid =>
    cases h
    split
    · exact semfree_counted semid
    · exact .refl
  | semdown p semid =>
    cases h
    split
    · exact semdown_counted semid
    · exact .refl
  | downTest p => cases h; exact downTest_counted
  | sleepRelease p =>
    cases h
    unfold SemSystem.sleepRelease
    split
    · exact .same rfl rfl
    · exact .refl
  | sleepSwitch p => exact sleepSwitch_counted h
  | reacquire p =>
    cases h
    unfold SemSystem.reacquire
    split
    · split
      · exact .same rfl rfl
      · exact .refl
    · exact .refl
  | semup p semid =>
    cases h
    split
    · exact semup_counted semid
    · exact .refl
  | upWakeup p => exact upWakeup_counted h
  | forkDup p =>
    simp only [SemSystem.step] at h
    split at h
    · exact forkDup_counted h
    · cases h; exact .refl
  | exitClose p => exact exitClose_counted h

end Steps

def KeepsBelow (i : SemId) (s : SemSystem) : SemAct → Prop
  | .semup p semid => (searchinprocess (s.view p) semid).map Prod.snd = some i →
    (s.sem i).value + 1 < 2 ^ 31
  | _ => True

instance (i : SemId) (s : SemSystem) : (a : SemAct) → Decidable (KeepsBelow i s a)
  | .semup _ _ => inferInstanceAs (Decidable (_ → _))
  | .sched _ | .semget _ _ _ | .semfree _ _ | .semdown _ _ | .downTest _ | .sleepRelease _
    | .sleepSwitch _
  | .reacquire _ | .upWakeup _ | .forkDup _ | .exitClose _ => isTrue trivial

def SemSystem.ReachedBelow (i : SemId) : SemSystem → Prop :=
  Reaches SemSystem.step (KeepsBelow i) (· = SemSystem.initial)

def Balanced (x : Semaphore) (h : SemHistory) : Prop :=
  0 ≤ h.init → x.value = h.init + h.ups.length - h.downs.length ∧ 0 ≤ x.value

theorem incr_eq {x : Int} (low : 0 ≤ x) (high : x + 1 < 2 ^ 31) : incr x = x + 1 := by
  unfold incr
  rw [Int.bmod_eq_of_le (by omega) (by omega)]

theorem Balanced.step {i : SemId} {s : SemSystem} {a : SemAct}
    (h : Balanced (s.sem i) (s.history i))
    (below : KeepsBelow i s a) (stepped : s.step a = .ok t) : Balanced (t.sem i) (t.history i) := by
  intro nonneg
  rcases SemSystem.step_counted stepped i with ⟨value, history⟩ | ⟨v, value, history⟩ |
    ⟨p, semid, k, rfl, found, value, history⟩ | ⟨p, positive, value, history⟩ <;>
      rw [history] at nonneg ⊢ <;> rw [value]
  · exact h nonneg
  · simpa using nonneg
  · obtain ⟨sum, low⟩ := h nonneg
    rw [incr_eq low (below (by rw [found]; rfl))]
    simp only [List.length_cons]
    omega
  · obtain ⟨sum, low⟩ := h nonneg
    simp only [List.length_cons]
    omega

/-- If every pid has at most as many ups as downs and there is at most one down more
in total, at most one pid has more downs than ups. -/
theorem unique_excess {ups downs : List Int} (matched : ∀ x, ups.count x ≤ downs.count x)
    (total : downs.length ≤ ups.length + 1) {x y : Int} (hx : ups.count x < downs.count x)
    (hy : ups.count y < downs.count y) : x = y := by
  have sub : (ups : Multiset Int) ≤ downs :=
    Multiset.le_iff_count.mpr (fun z => by simpa only [Multiset.coe_count] using matched z)
  obtain ⟨rest, split⟩ := Multiset.le_iff_exists_add.mp sub
  have card : Multiset.card rest ≤ 1 := by
    have := congrArg Multiset.card split
    simp only [Multiset.coe_card, Multiset.card_add] at this
    omega
  have member : ∀ z, ups.count z < downs.count z → z ∈ rest := by
    intro z hz
    have := congrArg (Multiset.count z) split
    simp only [Multiset.coe_count, Multiset.count_add] at this
    exact Multiset.count_pos.mp (by omega)
  have nonempty := Multiset.card_pos_iff_exists_mem.mpr ⟨x, member x hx⟩
  obtain ⟨z, rfl⟩ := Multiset.card_eq_one.mp (le_antisymm card nonempty)
  exact (Multiset.mem_singleton.mp (member x hx)).trans
    (Multiset.mem_singleton.mp (member y hy)).symm

theorem balanced {i : SemId} {s : SemSystem} (run : s.ReachedBelow i) :
    Balanced (s.sem i) (s.history i) :=
  Reaches.invariant (fun s => Balanced (s.sem i) (s.history i))
    (by rintro _ rfl _; exact ⟨rfl, Int.le_refl 0⟩)
    (fun _ _ _ h below stepped => h.step below stepped) run

/-- As long as a semaphore created with v >= 0 stays below 2^31, its value is v plus
the semups minus the semdowns on it, and never negative. With v = 1 there is at most
one semdown more than there are semups; if every process calls semup only after a
semdown of its own, at most one process is between the two. -/
theorem semaphore_accounting {i : SemId} {s : SemSystem} (run : s.ReachedBelow i)
    (created : 0 ≤ (s.history i).init) :
    (s.sem i).value = (s.history i).init + (s.history i).ups.length - (s.history i).downs.length ∧
    0 ≤ (s.sem i).value ∧
    ((s.history i).init = 1 → (s.history i).downs.length ≤ (s.history i).ups.length + 1 ∧
      ((∀ pid, (s.history i).ups.count pid ≤ (s.history i).downs.count pid) → ∀ pid other,
        (s.history i).ups.count pid < (s.history i).downs.count pid →
        (s.history i).ups.count other < (s.history i).downs.count other → pid = other)) := by
  obtain ⟨sum, low⟩ := balanced run created
  refine ⟨sum, low, fun one => ?_⟩
  have total : (s.history i).downs.length ≤ (s.history i).ups.length + 1 := by omega
  exact ⟨total, fun matched _ _ hx hy => unique_excess matched total hx hy⟩

/-- One semdown on a fresh mutex. -/
theorem semaphore_accounting_mutex :
    ∃ s : SemSystem, s.ReachedBelow 0 ∧ (s.history 0).init = 1 ∧ (s.history 0).downs = [1] ∧
      (s.sem 0).value = 0 ∧ (s.history 0).downs.length ≤ (s.history 0).ups.length + 1 := by
  have start : SemSystem.initial.ReachedBelow 0 := .start rfl
  obtain ⟨s, run, last⟩ := start.exists_of_follow
    [.sched .dispatch, .semget 0 (-1) 1, .semdown 0 0, .downTest 0, .semup 0 0, .upWakeup 0,
      .semget 0 (-1) 0,
      .semfree 0 0, .semget 0 (-1) 1, .semdown 0 0, .downTest 0]
    (fun s => (s.history 0).init = 1 ∧ (s.history 0).downs = [1] ∧ (s.history 0).ups = [])
      (by decide +kernel)
  simp only [decide_eq_true_eq] at last
  have account := semaphore_accounting run (by rw [last.1]; decide)
  refine ⟨s, run, last.1, last.2.1, ?_, (account.2.2 last.1).1⟩
  rw [account.1, last.1, last.2.1, last.2.2]
  rfl

end MmapXv6
