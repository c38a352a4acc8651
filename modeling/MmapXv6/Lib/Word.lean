import Mathlib.Algebra.Group.Int.Defs
import Mathlib.Algebra.Group.Nat.Defs
import Mathlib.Logic.Function.Basic

/-! Thirty-two bit words in a sequence of bytes, little end first. -/
namespace Lib

abbrev Bytes := Nat → UInt8

def word (b : Bytes) (at_ : Nat) : Nat :=
  (b at_).toNat + 2 ^ 8 * (b (at_ + 1)).toNat + 2 ^ 16 * (b (at_ + 2)).toNat +
    2 ^ 24 * (b (at_ + 3)).toNat

def setWord (b : Bytes) (at_ v : Nat) : Bytes := fun j =>
  if j = at_ then UInt8.ofNat v
  else if j = at_ + 1 then UInt8.ofNat (v / 2 ^ 8)
  else if j = at_ + 2 then UInt8.ofNat (v / 2 ^ 16)
  else if j = at_ + 3 then UInt8.ofNat (v / 2 ^ 24)
  else b j

theorem word_lt (b : Bytes) (at_ : Nat) : word b at_ < 2 ^ 32 := by
  have h0 := (b at_).toNat_lt
  have h1 := (b (at_ + 1)).toNat_lt
  have h2 := (b (at_ + 2)).toNat_lt
  have h3 := (b (at_ + 3)).toNat_lt
  unfold word
  omega

theorem word_setWord (b : Bytes) (at_ : Nat) {v : Nat} (h : v < 2 ^ 32) :
    word (setWord b at_ v) at_ = v := by
  have low : ∀ n, (UInt8.ofNat n).toNat = n % 2 ^ 8 := fun n => UInt8.toNat_ofNat'
  simp [word, setWord, low]
  omega

theorem word_setWord_ne (b : Bytes) {x y : Nat} (v : Nat) (apart : x + 4 ≤ y ∨ y + 4 ≤ x) :
    word (setWord b x v) y = word b y := by
  have other : ∀ j, y ≤ j → j < y + 4 → setWord b x v j = b j := by
    intro j low high
    unfold setWord
    rw [if_neg (by omega), if_neg (by omega), if_neg (by omega), if_neg (by omega)]
  unfold word
  rw [other y (by omega) (by omega), other (y + 1) (by omega) (by omega),
    other (y + 2) (by omega) (by omega), other (y + 3) (by omega) (by omega)]

def toInt (w : Nat) : Int := if w < 2 ^ 31 then w else (w : Int) - 2 ^ 32

theorem toInt_small {w : Nat} (h : w < 2 ^ 31) : toInt w = w := if_pos h

end Lib
