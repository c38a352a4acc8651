import MmapXv6.Proc.Sched

/-! The MLF implements strict priority with a first-in first-out order inside each level. -/
namespace MmapXv6

open Lib

/-- The pointer queues are the sequences that the calls of make_runnable and unqueue so far
produce. The process that scheduler dispatches heads the first nonempty one: no RUNNABLE process
has a smaller priority number, and one of the same priority was made runnable later. -/
theorem mlf_strict_priority_fifo {s : Sched} (run : s.Reached) :
    (∀ l, Linked (fun p => (s.table.proc p).next) (s.table.mlf l).first
        (replay s.table.history l) ∧ (s.table.mlf l).last = (replay s.table.history l).getLast?) ∧
    (∀ p (l : Fin MLFLEVELS), p ∈ replay s.table.history l ↔
      (s.table.proc p).state = .runnable ∧ (s.table.proc p).priority = l) ∧
    ∃ r u, scheduler s.table = .ok (r, u) ∧
      (r = none ↔ ∀ p, (s.table.proc p).state ≠ .runnable) ∧
      ∀ p, r = some p → (s.table.proc p).state = .runnable ∧
        (∃ l rest, replay s.table.history l = p :: rest) ∧
        ∀ q, (s.table.proc q).state = .runnable → q ≠ p →
          (s.table.proc p).priority < (s.table.proc q).priority ∨
          (s.table.proc p).priority = (s.table.proc q).priority ∧
            lastPush s.table.history p < lastPush s.table.history q := by
  have mlf := run.inv.mlf
  refine ⟨fun l => ⟨(mlf.queue l).linked, (mlf.queue l).last_eq⟩, mlf.member, ?_⟩
  have waits : ∀ q, (s.table.proc q).state = .runnable →
      ∃ l : Fin MLFLEVELS, (s.table.proc q).priority = l ∧ q ∈ replay s.table.history l := by
    intro q runnable
    exact ⟨⟨_, mlf.level q runnable⟩, rfl, (mlf.member q _).mpr ⟨runnable, rfl⟩⟩
  have nonempty : ∀ l, (s.table.mlf l).first.isSome = true ↔ replay s.table.history l ≠ [] := by
    intro l
    rw [mlf.first]
    cases replay s.table.history l <;> simp
  unfold MmapXv6.scheduler
  cases found : (List.finRange MLFLEVELS).find? (fun l => (s.table.mlf l).first.isSome) with
  | none =>
    refine ⟨none, _, rfl, ⟨fun _ q runnable => ?_, fun _ => rfl⟩, fun p hp => by cases hp⟩
    obtain ⟨l, _, member⟩ := waits q runnable
    exact List.find?_eq_none.mp found l (List.mem_finRange l)
      ((nonempty l).mpr (List.ne_nil_of_mem member))
  | some l =>
    have first : (s.table.mlf l).first.isSome = true := by simpa using List.find?_some found
    obtain ⟨p, rest, front⟩ := List.exists_cons_of_ne_nil ((nonempty l).mp first)
    obtain ⟨v, hv, _⟩ := mlf.unqueue front
    have here := (mlf.member p l).mp (by rw [front]; exact List.mem_cons_self)
    simp only [hv, ok_bind, pure_ok]
    refine ⟨some p, _, rfl, ?_, ?_⟩
    · constructor
      · intro empty
        cases empty
      · intro idle
        exact absurd here.1 (idle p)
    intro _ same
    cases same
    refine ⟨here.1, ⟨l, rest, front⟩, fun q runnable ne => ?_⟩
    obtain ⟨k, level, member⟩ := waits q runnable
    -- the search stopped at the first nonempty level, so q waits at l or below it
    have order : l ≤ k := by
      obtain ⟨_, i, bound, at_i, earlier⟩ := List.find?_eq_some_iff_getElem.mp found
      by_contra above
      have before : k.val < i := by
        have place : i = l.val := by rw [← at_i]; simp
        omega
      have := earlier k.val before
      simp only [List.getElem_finRange] at this
      exact absurd ((nonempty k).mpr (List.ne_nil_of_mem member)) (by simpa using this)
    rcases Fin.lt_or_eq_of_le order with less | rfl
    · left
      rw [here.2, level]
      exact less
    · right
      exact ⟨here.2.trans level.symm, mlf.ordered.head_first front member ne⟩

/-- Two children wait at level 0 and their parent at level 1: the older child is next. -/
theorem mlf_strict_priority_fifo_two_children :
    ∃ s : Sched, s.Reached ∧ replay s.table.history 0 = [1, 2] ∧ replay s.table.history 1 = [0] ∧
      ∃ p u, scheduler s.table = .ok (some p, u) ∧ (s.table.proc p).state = .runnable := by
  have start : Sched.initial.Reached := .start rfl
  obtain ⟨s, run, queues⟩ := start.exists_of_follow
    [.dispatch, .forkClaim 0, .forkStack 0 true, .forkCopy 0 true, .forkClaim 0, .forkStack 0 true,
      .forkCopy 0 true, .yield 0]
    (fun s : Sched => (replay s.table.history 0 = [1, 2] ∧ replay s.table.history 1 = [0]) ∧
      (s.table.proc 1).state = .runnable) (by decide +kernel)
  simp only [decide_eq_true_eq] at queues
  obtain ⟨_, _, r, u, done, idle, chosen⟩ := mlf_strict_priority_fifo run
  cases r with
  | none => exact absurd queues.2 (idle.mp rfl 1)
  | some p => exact ⟨s, run, queues.1.1, queues.1.2, p, u, done, (chosen p rfl).1⟩

end MmapXv6
