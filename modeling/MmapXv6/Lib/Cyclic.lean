import Mathlib.Algebra.Order.Group.Nat
import Mathlib.Data.List.Infix
import Mathlib.Data.Nat.ModEq

/-! A stream that passes through an array of cap cells, each element at its number
modulo cap. The numbers of the next element to put and of the next one to take may be
kept modulo M, as long as M leaves more than cap numbers apart. -/
namespace Lib

/-- The elements that are put and not yet taken are in their cells. -/
structure Cyclic (cap : Nat) (data : Nat → A) (put taken : List A) : Prop where
  order : taken <+: put
  fits : put.length ≤ taken.length + cap
  held : ∀ k x, taken.length ≤ k → put[k]? = some x → data (k % cap) = x

section Cyclic
variable {A : Type*} {cap : Nat} {data : Nat → A} {put taken : List A}

theorem Cyclic.nil (cap : Nat) (data : Nat → A) : Cyclic cap data [] [] :=
  ⟨List.prefix_refl [], Nat.zero_le _, fun _ _ _ found => by simp at found⟩

theorem mod_ne_of_window {cap k m : Nat} (before : k < m) (near : m < k + cap) :
    k % cap ≠ m % cap := by
  intro same
  have apart : cap ∣ m - k := (Nat.modEq_iff_dvd' before.le).mp same
  have := Nat.le_of_dvd (by omega) apart
  omega

theorem Cyclic.push (h : Cyclic cap data put taken) (room : put.length < taken.length + cap)
    (x : A) : Cyclic cap (Function.update data (put.length % cap) x) (put ++ [x]) taken := by
  refine ⟨h.order.trans (List.prefix_append put [x]), by simpa using Nat.succ_le_of_lt room,
    fun k y waiting found => ?_⟩
  rcases Nat.lt_trichotomy k put.length with before | rfl | after
  · have apart : k % cap ≠ put.length % cap := mod_ne_of_window before (by omega)
    rw [List.getElem?_append_left before] at found
    rw [Function.update_of_ne apart]
    exact h.held k y waiting found
  · simpa using found
  · rw [List.getElem?_eq_none (by simp; omega)] at found
    cases found

theorem Cyclic.shorten {less : List A} (h : Cyclic cap data put taken) (shorter : less <+: put)
    (order : taken <+: less) : Cyclic cap data less taken := by
  refine ⟨order, shorter.length_le.trans h.fits, fun k x waiting found => h.held k x waiting ?_⟩
  obtain ⟨rest, rfl⟩ := shorter
  rw [List.getElem?_append_left (List.getElem?_eq_some_iff.mp found).1, found]

theorem Cyclic.cells (h : Cyclic cap data put taken) :
    (List.range (put.length - taken.length)).map (fun i => data ((taken.length + i) % cap)) =
      put.drop taken.length := by
  refine List.ext_getElem (by simp) fun i low high => ?_
  simp only [List.length_drop] at high
  rw [List.getElem_map, List.getElem_range, List.getElem_drop]
  exact h.held _ _ (Nat.le_add_right _ _) (List.getElem?_eq_getElem (by omega))

theorem Cyclic.pop (h : Cyclic cap data put taken) (some : taken.length < put.length) :
    Cyclic cap data put (taken ++ [data (taken.length % cap)]) := by
  have next : put[taken.length]? = .some (put[taken.length]) := List.getElem?_eq_getElem some
  refine ⟨?_, ?_, fun k x waiting found => ?_⟩
  · rw [h.held _ _ (Nat.le_refl _) next]
    obtain ⟨rest, rfl⟩ := h.order
    cases rest with
    | nil => simp at some
    | cons x rest => simp
  · have := h.fits
    simp
    omega
  · exact h.held k x (by simp at waiting; omega) found

end Cyclic

section Counters
variable {cap M put taken : Nat}

theorem counters_eq (order : taken ≤ put) (near : put < taken + M) :
    taken % M = put % M ↔ taken = put := by
  constructor
  · intro same
    by_contra differ
    exact mod_ne_of_window (by omega) near same
  · rintro rfl; rfl

theorem counters_full (order : taken ≤ put) (fits : put ≤ taken + cap) (wide : cap < M) :
    put % M = (taken % M + cap) % M ↔ put = taken + cap := by
  rw [Nat.mod_add_mod]
  exact counters_eq fits (by omega)

theorem counters_distance (order : taken ≤ put) (near : put < taken + M) :
    (put % M + (M - taken % M)) % M = put - taken := by
  have low : taken % M < M := Nat.mod_lt _ (by omega)
  obtain ⟨d, rfl⟩ := Nat.exists_eq_add_of_le order
  have whole : taken + d + (M - taken % M) = d + M * (taken / M + 1) := by
    have := Nat.div_add_mod taken M
    rw [Nat.mul_add]
    omega
  rw [Nat.mod_add_mod, whole, Nat.add_mul_mod_self_left, Nat.mod_eq_of_lt (by omega)]
  omega

end Counters

end Lib
