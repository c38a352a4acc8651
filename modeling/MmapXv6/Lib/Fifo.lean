import Mathlib.Logic.Function.Basic

/-! A family of first-in first-out sequences and the history of the operations on
them, the latest operation first. The place of an operation in its history is its
time: the order of a sequence is the order of the last insertions of its members. -/
namespace Lib

open Function

inductive QueueOp (L A : Type*) where
  | push (l : L) (a : A)
  | pop (l : L)

section Fifo
variable {L A : Type*} [DecidableEq L] [DecidableEq A]

def QueueOp.apply (qs : L → List A) : QueueOp L A → L → List A
  | .push l a => update qs l (qs l ++ [a])
  | .pop l => update qs l (qs l).tail

def replay : List (QueueOp L A) → L → List A
  | [] => fun _ => []
  | op :: ops => op.apply (replay ops)

/-- The time of the last insertion of an element, 0 if there is none. -/
def lastPush : List (QueueOp L A) → A → Nat
  | [], _ => 0
  | .push _ b :: ops, a => if a = b then ops.length + 1 else lastPush ops a
  | .pop _ :: ops, a => lastPush ops a

omit [DecidableEq L] in
theorem lastPush_le (ops : List (QueueOp L A)) (a : A) : lastPush ops a ≤ ops.length := by
  induction ops with
  | nil => exact Nat.le_refl 0
  | cons op ops ih =>
    cases op with
    | push l b =>
      simp only [lastPush, List.length_cons]
      split <;> omega
    | pop l => exact Nat.le_succ_of_le ih

def Ordered (ops : List (QueueOp L A)) : Prop :=
  ∀ l, (replay ops l).Pairwise (fun a b => lastPush ops a < lastPush ops b)

theorem Ordered.push {ops : List (QueueOp L A)} (h : Ordered ops) (l : L) {a : A}
    (fresh : ∀ k, a ∉ replay ops k) : Ordered (.push l a :: ops) := by
  have old : ∀ k, (replay ops k).Pairwise
      (fun b c => lastPush (.push l a :: ops) b < lastPush (.push l a :: ops) c) := by
    intro k
    apply (h k).imp_of_mem
    intro b c hb hc order
    have ne : ∀ x ∈ replay ops k, x ≠ a := fun x hx e => fresh k (e ▸ hx)
    rw [lastPush, lastPush, if_neg (ne b hb), if_neg (ne c hc)]
    exact order
  intro k
  by_cases here : k = l
  · subst here
    simp only [replay, QueueOp.apply, update_self]
    apply List.pairwise_append.mpr
    refine ⟨old k, List.pairwise_singleton _ _, ?_⟩
    intro b hb c hc
    rw [List.mem_singleton.mp hc, lastPush, lastPush, if_pos rfl, if_neg]
    · exact Nat.lt_succ_of_le (lastPush_le ops b)
    · rintro rfl
      exact fresh k hb
  · simpa only [replay, QueueOp.apply, update_of_ne here] using old k

theorem Ordered.pop {ops : List (QueueOp L A)} (h : Ordered ops) (l : L) :
    Ordered (.pop l :: ops) := by
  intro k
  by_cases here : k = l
  · subst here
    simpa only [replay, QueueOp.apply, update_self, lastPush] using
      (h k).sublist (List.tail_sublist _)
  · simpa only [replay, QueueOp.apply, update_of_ne here, lastPush] using h k

theorem Ordered.head_first {ops : List (QueueOp L A)} (h : Ordered ops) {l : L} {a b : A}
    {rest : List A} (front : replay ops l = a :: rest) (member : b ∈ replay ops l) (ne : b ≠ a) :
    lastPush ops a < lastPush ops b := by
  have sorted := h l
  rw [front] at sorted member
  exact (List.pairwise_cons.mp sorted).1 b ((List.mem_cons.mp member).resolve_left ne)

end Fifo

end Lib
