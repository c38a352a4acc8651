import MmapXv6.Proc.Table
import MmapXv6.Lib.Chain

/-! The pointer queues of the MLF against MLFLEVELS abstract sequences. The lists qs are the
abstract state, and Chains says that the pointers spell them. -/
namespace MmapXv6

open Lib Function

variable {l : Fin MLFLEVELS} {p : Slot}

abbrev Queues := Fin MLFLEVELS → List Slot

structure Chains (t : Ptable) (qs : Queues) : Prop where
  queue : ∀ l, IsQueue (fun p => (t.proc p).next) (t.mlf l).first (t.mlf l).last (qs l)
  apart : ∀ l k p, p ∈ qs l → p ∈ qs k → l = k

theorem mlfLevel_ok {n : Nat} (h : n < MLFLEVELS) : mlfLevel n = .ok ⟨n, h⟩ := by
  simp only [mlfLevel, dif_pos h]

theorem mlfLevel_of_eq {n : Nat} (h : n = l) : mlfLevel n = .ok l := by
  subst h
  exact mlfLevel_ok l.isLt

@[simp] theorem enqueue_self (t : Ptable) (l : Fin MLFLEVELS) (p : Slot) :
    (t.enqueue l p).proc p = { t.proc p with next := none, age := 0, state := .runnable } := by
  unfold Ptable.enqueue Ptable.linkLast
  cases (t.mlf l).last with
  | none => simp [Ptable.setMlf]
  | some z =>
    by_cases hz : p = z
    · subst hz; simp [Ptable.setMlf]
    · simp [Ptable.setMlf, Ptable.modify_ne _ _ hz]

theorem enqueue_ne (t : Ptable) (l : Fin MLFLEVELS) {q : Slot} (h : q ≠ p) :
    (t.enqueue l p).proc q =
      { t.proc q with next := if (t.mlf l).last = some q then some p else (t.proc q).next } := by
  unfold Ptable.enqueue Ptable.linkLast
  rw [Ptable.modify_ne _ _ h]
  cases (t.mlf l).last with
  | none => simp [Ptable.setMlf]
  | some z =>
    by_cases hz : q = z
    · subst hz; simp [Ptable.setMlf]
    · simp [Ptable.setMlf, Ptable.modify_ne _ _ hz, Ne.symm hz]

theorem enqueue_mlf_self (t : Ptable) (l : Fin MLFLEVELS) (p : Slot) :
    (t.enqueue l p).mlf l =
      ⟨if (t.mlf l).last = none then some p else (t.mlf l).first, some p⟩ := by
  unfold Ptable.enqueue Ptable.linkLast
  cases h : (t.mlf l).last <;> simp [Ptable.setMlf]

theorem enqueue_mlf_ne (t : Ptable) {k : Fin MLFLEVELS} (p : Slot) (h : k ≠ l) :
    (t.enqueue l p).mlf k = t.mlf k := by
  unfold Ptable.enqueue Ptable.linkLast
  cases (t.mlf l).last <;> simp [Ptable.setMlf, h]

structure Requeued (t : Ptable) (p : Slot) (u : Ptable) : Prop where
  self : u.proc p = { t.proc p with next := none, age := 0, state := .runnable }
  other : ∀ q, q ≠ p → ∃ nx, u.proc q = { t.proc q with next := nx }
  initproc : u.initproc = t.initproc
  nextpid : u.nextpid = t.nextpid

theorem makeRunnable_requeued {t u : Ptable} (h : makeRunnable t p = .ok u) :
    Requeued t p u := by
  rw [makeRunnable, bind_ok] at h
  obtain ⟨l, _, hu⟩ := h
  cases Except.ok.inj hu
  refine ⟨enqueue_self t l p, fun q hq => ⟨_, enqueue_ne t l hq⟩, ?_, ?_⟩
  · unfold Ptable.enqueue Ptable.linkLast
    cases (t.mlf l).last <;> rfl
  · unfold Ptable.enqueue Ptable.linkLast
    cases (t.mlf l).last <;> rfl

section Chains
variable {t : Ptable} {qs : Queues}

theorem Chains.mem_of_last (h : Chains t qs)
    (last : (t.mlf l).last = some p) : p ∈ qs l :=
  List.mem_of_getLast? ((h.queue l).last_eq ▸ last)

theorem Chains.enqueue (h : Chains t qs) (l : Fin MLFLEVELS) (fresh : ∀ k, p ∉ qs k) :
    Chains (t.enqueue l p) (update qs l (qs l ++ [p])) := by
  have next_same : ∀ x, x ≠ p → (t.mlf l).last ≠ some x →
      ((t.enqueue l p).proc x).next = (t.proc x).next := by
    intro x hx ne
    rw [enqueue_ne t l hx, if_neg ne]
  have ne_p : ∀ k, ∀ x ∈ qs k, x ≠ p := fun k x hx e => fresh k (e ▸ hx)
  constructor
  · intro k
    by_cases hk : k = l
    · subst hk
      rw [update_self, enqueue_mlf_self]
      refine (h.queue k).enqueue (fresh k) (fun x hx ne => next_same x (ne_p k x hx) ne) ?_ ?_
      · intro z hz
        rw [enqueue_ne t k (ne_p k z (h.mem_of_last hz)), if_pos hz]
      · rw [enqueue_self]
    · rw [update_of_ne hk, enqueue_mlf_ne t p hk]
      refine (h.queue k).congr (fun x hx => next_same x (ne_p k x hx) ?_)
      intro e
      exact hk (h.apart k l x hx (h.mem_of_last e))
  · intro j k q hj hk
    have old : ∀ i, q ∈ update qs l (qs l ++ [p]) i → q ∈ qs i ∨ (q = p ∧ i = l) := by
      intro i hi
      by_cases e : i = l
      · subst e
        rw [update_self, List.mem_append, List.mem_singleton] at hi
        exact hi.imp_right (fun hq => ⟨hq, rfl⟩)
      · rw [update_of_ne e] at hi
        exact .inl hi
    rcases old j hj with oj | ⟨ej, lj⟩
    · rcases old k hk with ok | ⟨ek, _⟩
      · exact h.apart j k q oj ok
      · exact absurd ek (ne_p j q oj)
    · rcases old k hk with ok | ⟨_, lk⟩
      · exact absurd ej (ne_p k q ok)
      · exact lj.trans lk.symm

theorem Chains.unqueue (h : Chains t qs) {rest : List Slot}
    (front : qs l = p :: rest) (runnable : (t.proc p).state = .runnable) :
    ∃ u, unqueue t l = .ok (p, u) ∧ Chains u (update qs l rest) ∧
      u.proc = t.proc ∧ u.history = .pop l :: t.history := by
  have queue := front ▸ h.queue l
  have first : (t.mlf l).first = some p := queue.linked.1
  refine ⟨{ t.setMlf l ⟨if (t.mlf l).first = (t.mlf l).last then none else (t.proc p).next,
      if (t.mlf l).first = (t.mlf l).last then none else (t.mlf l).last⟩ with
    history := .pop l :: t.history }, ?_, ?_, rfl, rfl⟩
  · simp only [MmapXv6.unqueue, first, runnable, ne_eq, not_true_eq_false, if_false]
    by_cases e : some p = (t.mlf l).last
    · rw [if_pos e, if_pos e, if_pos e]
    · rw [if_neg e, if_neg e, if_neg e]
  · constructor
    · intro k
      by_cases hk : k = l
      · subst hk
        simpa [Ptable.setMlf] using queue.dequeue
      · simpa [Ptable.setMlf, hk] using h.queue k
    · intro j k q hj hk
      have old : ∀ i, q ∈ update qs l rest i → q ∈ qs i := by
        intro i hi
        by_cases e : i = l
        · subst e
          rw [update_self] at hi
          rw [front]
          exact List.mem_cons_of_mem p hi
        · rwa [update_of_ne e] at hi
      exact h.apart j k q (old j hj) (old k hk)

theorem Chains.congr (h : Chains t qs) {u : Ptable} (mlf : u.mlf = t.mlf)
    (next : ∀ l, ∀ p ∈ qs l, (u.proc p).next = (t.proc p).next) : Chains u qs :=
  ⟨fun l => by rw [mlf]; exact (h.queue l).congr (next l), h.apart⟩

end Chains

end MmapXv6
