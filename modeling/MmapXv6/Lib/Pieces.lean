import Mathlib.Data.List.Basic
import Mathlib.Algebra.Order.Group.Nat

/-! A sequence cut into pieces of a given length, of which the last may be shorter. A
loop that has handled the first k pieces goes on with the next one, and is done when k
of them reach the end. -/
namespace Lib

def pieces (n : Nat) (xs : List A) : List (List A) :=
  (List.range ((xs.length + (n - 1)) / n)).map fun k => (xs.drop (k * n)).take n

variable {xs : List A} {n k : Nat}

theorem pieces_length (n : Nat) (xs : List A) :
    (pieces n xs).length = (xs.length + (n - 1)) / n := by
  simp [pieces]

theorem pieces_more (pos : 0 < n) : k < (pieces n xs).length ↔ k * n < xs.length := by
  rw [pieces_length, Nat.lt_div_iff_mul_lt pos]
  omega

theorem pieces_take_succ (pos : 0 < n) (more : k * n < xs.length) :
    (pieces n xs).take (k + 1) = (pieces n xs).take k ++ [(xs.drop (k * n)).take n] := by
  have lt := (pieces_more pos).mpr more
  rw [List.take_succ_eq_append_getElem lt]
  simp [pieces]

theorem pieces_take_all (pos : 0 < n) (all : xs.length ≤ k * n) :
    (pieces n xs).take k = pieces n xs := by
  apply List.take_of_length_le
  refine Nat.le_of_not_lt fun more => ?_
  have := (pieces_more pos).mp more
  omega

end Lib
