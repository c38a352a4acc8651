import Mathlib.Data.Nat.Bitwise
import MmapXv6.Lib.Word

/-! Records inside a sequence of bytes: the bytes of a number, sixteen bit words, a
copied range. -/
namespace Lib

variable {at_ n : Nat} {b src : Bytes}

def byteOf (v r : Nat) : UInt8 := UInt8.ofNat (v / 2 ^ (8 * r))

def half (b : Bytes) (at_ : Nat) : Nat := (b at_).toNat + 2 ^ 8 * (b (at_ + 1)).toNat

theorem byteOf_toNat (v r : Nat) : (byteOf v r).toNat = v / 2 ^ (8 * r) % 2 ^ 8 :=
  UInt8.toNat_ofNat'

theorem half_congr {c : Bytes} {x y : Nat} (same : ∀ r, r < 2 → b (x + r) = c (y + r)) :
    half b x = half c y := by
  have low := same 0 (by decide)
  have high := same 1 (by decide)
  rw [Nat.add_zero, Nat.add_zero] at low
  unfold half
  rw [low, high]

/-- The copy of n bytes of src to a position of b, as memmove does it. -/
def splice (b : Bytes) (at_ n : Nat) (src : Bytes) : Bytes := fun j =>
  if at_ ≤ j ∧ j < at_ + n then src (j - at_) else b j

theorem splice_inside {j : Nat} (lo : at_ ≤ j) (hi : j < at_ + n) :
    splice b at_ n src j = src (j - at_) := if_pos ⟨lo, hi⟩

theorem splice_at {r : Nat} (small : r < n) :
    splice b at_ n src (at_ + r) = src r := by
  rw [splice_inside (by omega) (by omega), Nat.add_sub_cancel_left]

theorem splice_outside {j : Nat} (out : j < at_ ∨ at_ + n ≤ j) :
    splice b at_ n src j = b j := if_neg (by omega)

end Lib
