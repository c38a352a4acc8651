import Mathlib.Algebra.BigOperators.Fin

/-! How many cells of a finite table point at a value, and how that number follows
the writes to the table: what a reference count has to agree with. -/
namespace Lib

open Function

section Fibre
variable {X Y : Type*} [Fintype X] [DecidableEq X] [DecidableEq Y]

def fibre (f : X → Option Y) (y : Y) : Finset X := Finset.univ.filter (fun x => f x = some y)

omit [DecidableEq X] in
theorem mem_fibre {f : X → Option Y} {y : Y} {x : X} : x ∈ fibre f y ↔ f x = some y := by
  simp [fibre]

theorem card_fibre_set {f : X → Option Y} {x : X} (free : f x = none) (y z : Y) :
    (fibre (update f x (some y)) z).card = (fibre f z).card + if z = y then 1 else 0 := by
  by_cases e : z = y
  · subst e
    have new : fibre (update f x (some z)) z = insert x (fibre f z) := by
      ext w
      by_cases ew : w = x
      · subst ew; simp [mem_fibre]
      · simp [mem_fibre, ew]
    rw [new, Finset.card_insert_of_notMem (by simp [mem_fibre, free]), if_pos rfl]
  · have same : fibre (update f x (some y)) z = fibre f z := by
      ext w
      by_cases ew : w = x
      · subst ew; simp [mem_fibre, free, Ne.symm e]
      · simp [mem_fibre, ew]
    rw [same, if_neg e, Nat.add_zero]

theorem card_fibre_clear {f : X → Option Y} {x : X} {y : Y} (held : f x = some y) (z : Y) :
    (fibre (update f x none) z).card + (if z = y then 1 else 0) = (fibre f z).card := by
  have back : update (update f x none) x (some y) = f := by
    rw [update_idem, ← held, update_eq_self]
  rw [← card_fibre_set (update_self x none f) y z, back]

omit [DecidableEq X] in
theorem card_fibre_pos {f : X → Option Y} {y : Y} : 0 < (fibre f y).card ↔ ∃ x, f x = some y := by
  simp [Finset.card_pos, Finset.Nonempty, mem_fibre]

omit [DecidableEq X] in
theorem card_fibre_none {f : X → Option Y} (empty : ∀ x, f x = none) (y : Y) :
    (fibre f y).card = 0 := by
  simp [fibre, empty]

omit [Fintype X] [DecidableEq X] in
theorem card_fibre_succ (f : Nat → Option Y) (n : Nat) (y : Y) :
    (fibre (fun i : Fin (n + 1) => f i) y).card =
      (fibre (fun i : Fin n => f i) y).card + if f n = some y then 1 else 0 := by
  simp only [fibre, Finset.card_filter]
  rw [Fin.sum_univ_castSucc]
  simp

end Fibre

theorem sum_update [Fintype P] [DecidableEq P] (f : P → Nat) (p : P) (v : Nat) :
    ∑ q, update f p v q + f p = ∑ q, f q + v := by
  rw [← Finset.add_sum_erase _ _ (Finset.mem_univ p),
    ← Finset.add_sum_erase Finset.univ f (Finset.mem_univ p)]
  have rest : ∑ q ∈ Finset.univ.erase p, update f p v q = ∑ q ∈ Finset.univ.erase p, f q := by
    refine Finset.sum_congr rfl fun q other => ?_
    rw [update_of_ne (Finset.ne_of_mem_erase other)]
  rw [rest, update_self]
  omega

section Holders
variable {P X Y : Type*} [Fintype P] [DecidableEq P] [Fintype X] [DecidableEq X] [DecidableEq Y]

def holders (rows : P → X → Option Y) (y : Y) : Nat := ∑ p, (fibre (rows p) y).card

omit [DecidableEq X] in
theorem holders_update (rows : P → X → Option Y) (p : P) (row : X → Option Y) (y : Y) :
    holders (update rows p row) y + (fibre (rows p) y).card =
      holders rows y + (fibre row y).card := by
  have each : ∀ q, (fibre (update rows p row q) y).card =
      update (fun q => (fibre (rows q) y).card) p (fibre row y).card q :=
    Function.apply_update (fun _ row => (fibre row y).card) rows p row
  unfold holders
  rw [Finset.sum_congr rfl fun q _ => each q]
  exact sum_update _ p _

theorem holders_set {rows : P → X → Option Y} {p : P} {x : X} (free : rows p x = none) (y z : Y) :
    holders (update rows p (update (rows p) x (some y))) z =
      holders rows z + if z = y then 1 else 0 := by
  have row := holders_update rows p (update (rows p) x (some y)) z
  rw [card_fibre_set free] at row
  omega

theorem holders_clear {rows : P → X → Option Y} {p : P} {x : X} {y : Y} (held : rows p x = some y)
    (z : Y) : holders (update rows p (update (rows p) x none)) z +
      (if z = y then 1 else 0) = holders rows z := by
  have row := holders_update rows p (update (rows p) x none) z
  rw [← card_fibre_clear held] at row
  omega

omit [DecidableEq X] in
theorem holders_pos {rows : P → X → Option Y} {p : P} {x : X} {y : Y} (held : rows p x = some y) :
    0 < holders rows y := by
  have row : 0 < (fibre (rows p) y).card := card_fibre_pos.mpr ⟨x, held⟩
  unfold holders
  rw [← Finset.add_sum_erase Finset.univ (fun q => (fibre (rows q) y).card) (Finset.mem_univ p)]
  omega

end Holders

end Lib
