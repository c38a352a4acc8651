import Mathlib.Data.List.Nodup

/-! Queues threaded through a next pointer of their elements, with a pointer to
the first and to the last one. The list xs is the abstract value of the queue;
each lemma takes the changed pointers as hypotheses, so that any record layout
of the elements can use it. -/
namespace Lib

/-- Following next from first meets exactly the elements of xs, then null. -/
def Linked (next : I → Option I) : Option I → List I → Prop
  | first, [] => first = none
  | first, x :: xs => first = some x ∧ Linked next (next x) xs

theorem Linked.congr {next other : I → Option I} {xs : List I} (same : ∀ x ∈ xs, other x = next x)
    {first : Option I} (h : Linked next first xs) : Linked other first xs := by
  induction xs generalizing first with
  | nil => exact h
  | cons x xs ih =>
    refine ⟨h.1, ?_⟩
    rw [same x List.mem_cons_self]
    exact ih (fun y hy => same y (List.mem_cons_of_mem x hy)) h.2

theorem Linked.snoc {next other : I → Option I} {xs : List I} {first : Option I} {z p : I}
    (h : Linked next first xs) (nodup : xs.Nodup) (last : xs.getLast? = some z)
    (same : ∀ x ∈ xs, x ≠ z → other x = next x) (hung : other z = some p) (ends : other p = none) :
    Linked other first (xs ++ [p]) := by
  induction xs generalizing first with
  | nil => simp at last
  | cons x xs ih =>
    refine ⟨h.1, ?_⟩
    cases xs with
    | nil =>
      have hz : x = z := by simpa using last
      subst hz
      exact ⟨hung, ends⟩
    | cons y ys =>
      have tail : (y :: ys).getLast? = some z := by simpa using last
      have ne : x ≠ z := by
        rintro rfl
        exact (List.nodup_cons.mp nodup).1 (List.mem_of_getLast? tail)
      rw [same x List.mem_cons_self ne]
      exact ih h.2 (List.nodup_cons.mp nodup).2 tail
        (fun w hw => same w (List.mem_cons_of_mem x hw))

/-- The pointers first and last and the links between them represent xs. -/
structure IsQueue (next : I → Option I) (first last : Option I) (xs : List I) : Prop where
  linked : Linked next first xs
  last_eq : last = xs.getLast?
  nodup : xs.Nodup

theorem IsQueue.empty (next : I → Option I) : IsQueue next none none [] :=
  ⟨rfl, rfl, List.nodup_nil⟩

theorem IsQueue.congr {next other : I → Option I} {first last : Option I} {xs : List I}
    (h : IsQueue next first last xs) (same : ∀ x ∈ xs, other x = next x) :
    IsQueue other first last xs :=
  ⟨h.linked.congr same, h.last_eq, h.nodup⟩

theorem IsQueue.last_eq_none {next : I → Option I} {first last : Option I} {xs : List I}
    (h : IsQueue next first last xs) : last = none ↔ xs = [] := by
  rw [h.last_eq]
  exact List.getLast?_eq_none_iff

theorem IsQueue.first_eq {next : I → Option I} {first last : Option I} {xs : List I}
    (h : IsQueue next first last xs) : first = xs.head? := by
  cases xs with
  | nil => exact h.linked
  | cons x xs => exact h.linked.1

theorem IsQueue.enqueue {next other : I → Option I} {first last : Option I} {xs : List I} {p : I}
    (h : IsQueue next first last xs) (fresh : p ∉ xs)
    (same : ∀ x ∈ xs, last ≠ some x → other x = next x)
    (hung : ∀ z, last = some z → other z = some p) (ends : other p = none) :
    IsQueue other (if last = none then some p else first) (some p) (xs ++ [p]) := by
  refine ⟨?_, by simp, ?_⟩
  · cases hl : last with
    | none =>
      have hx : xs = [] := h.last_eq_none.mp hl
      subst hx
      exact ⟨by simp, ends⟩
    | some z =>
      have hz : xs.getLast? = some z := h.last_eq ▸ hl
      simp only [reduceCtorEq, if_false]
      refine h.linked.snoc h.nodup hz ?_ (hung z hl) ends
      intro x hx ne
      exact same x hx (fun e => ne (Option.some.inj (hl ▸ e)).symm)
  · rw [List.nodup_append]
    refine ⟨h.nodup, List.nodup_singleton p, ?_⟩
    intro a ha b hb e
    rw [List.mem_singleton] at hb
    exact fresh (hb ▸ e ▸ ha)

theorem IsQueue.dequeue {next : I → Option I} [DecidableEq I] {first last : Option I} {x : I}
    {xs : List I} (h : IsQueue next first last (x :: xs)) :
    IsQueue next (if first = last then none else next x)
      (if first = last then none else last) xs := by
  have nodup := List.nodup_cons.mp h.nodup
  have hf : first = some x := h.linked.1
  cases xs with
  | nil =>
    have same : first = last := by rw [hf, h.last_eq]; rfl
    simpa [same] using IsQueue.empty next
  | cons y ys =>
    have differ : first ≠ last := by
      intro e
      have hl : (y :: ys).getLast? = some x := by
        rw [← hf, e, h.last_eq]
        simp
      exact nodup.1 (List.mem_of_getLast? hl)
    rw [if_neg differ, if_neg differ]
    exact ⟨h.linked.2, by rw [h.last_eq]; simp, nodup.2⟩

end Lib
