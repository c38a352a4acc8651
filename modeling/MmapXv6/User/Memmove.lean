import MmapXv6.Lib.Word

/-! The two functions of the name memmove: the one of the kernel in string.c, which copies
down if the source begins before an overlapping destination, and the one of the user library in
ulib.c, which always copies up. -/
namespace MmapXv6

open Function (update update_of_ne update_self)
open Lib (Bytes)

/-- while(n-- > 0) *d++ = *s++ -/
def copyUp (b : Bytes) (d s : Nat) : Nat → Bytes
  | 0 => b
  | n + 1 => copyUp (update b d (b s)) (d + 1) (s + 1) n

/-- while(n-- > 0) *--d = *--s, from the ends of the n bytes at d and at s -/
def copyDown (b : Bytes) (d s : Nat) : Nat → Bytes
  | 0 => b
  | n + 1 => copyDown (update b (d + n) (b (s + n))) d s n

def memmove (b : Bytes) (dst src n : Nat) : Bytes :=
  if src < dst ∧ (src + n) % 2 ^ 32 > dst then copyDown b dst src n else copyUp b dst src n

def Ulib.memmove (b : Bytes) (vdst vsrc : Nat) (n : Int) : Bytes := copyUp b vdst vsrc n.toNat

/-- The n bytes at d are those that s held, and no other byte is changed. -/
def Shifted (b : Bytes) (d s n : Nat) (b' : Bytes) : Prop :=
  (∀ j < n, b' (d + j) = b (s + j)) ∧ ∀ i, i < d ∨ d + n ≤ i → b' i = b i

section Copies
variable {b : Bytes} {d s n : Nat}

theorem copyUp_outside {i : Nat} (outside : i < d ∨ d + n ≤ i) : copyUp b d s n i = b i := by
  induction n generalizing b d s with
  | zero => rfl
  | succ n ih =>
    rw [copyUp, ih (by omega)]
    exact update_of_ne (by omega) _ _

theorem copyUp_shifted (apart : s < d → s + n ≤ d) : Shifted b d s n (copyUp b d s n) := by
  refine ⟨?_, fun i outside => copyUp_outside outside⟩
  induction n generalizing b d s with
  | zero => exact fun j less => absurd less (Nat.not_lt_zero j)
  | succ n ih =>
    intro j less
    rw [copyUp]
    cases j with
    | zero => rw [copyUp_outside (by omega), Nat.add_zero, update_self, Nat.add_zero]
    | succ j =>
      rw [show d + (j + 1) = d + 1 + j by omega, ih (by omega) j (by omega),
        update_of_ne (by omega)]
      congr 1
      omega

theorem copyDown_shifted (before : s < d) : Shifted b d s n (copyDown b d s n) := by
  induction n generalizing b with
  | zero => exact ⟨fun j less => absurd less (Nat.not_lt_zero j), fun _ _ => rfl⟩
  | succ n ih =>
    obtain ⟨moved, kept⟩ := ih (b := update b (d + n) (b (s + n)))
    refine ⟨fun j less => ?_, fun i outside => ?_⟩
    · rcases Nat.lt_succ_iff_lt_or_eq.mp less with below | rfl
      · rw [copyDown, moved j below, update_of_ne (by omega)]
      · rw [copyDown, kept _ (.inr (Nat.le_refl _)), update_self]
    · rw [copyDown, kept i (by omega), update_of_ne (by omega)]

theorem copyUp_repeats (before : s < d) {j : Nat} (less : j < n) :
    copyUp b d s n (d + j) = copyUp b d s n (s + j) := by
  induction n generalizing b d s j with
  | zero => exact absurd less (Nat.not_lt_zero j)
  | succ n ih =>
    rw [copyUp]
    cases j with
    | zero =>
      rw [copyUp_outside (by omega), copyUp_outside (by omega), Nat.add_zero, Nat.add_zero,
        update_self, update_of_ne (by omega)]
    | succ j =>
      have next :=
        ih (b := update b d (b s)) (Nat.succ_lt_succ before) (Nat.lt_of_succ_lt_succ less)
      rwa [Nat.succ_add, Nat.succ_add] at next

theorem copyUp_shifted_iff (before : s < d) :
    Shifted b d s n (copyUp b d s n) ↔ ∀ j, j + (d - s) < n → b (s + j + (d - s)) = b (s + j) := by
  constructor
  · rintro ⟨moved, -⟩ j inside
    have ahead : s + j + (d - s) = d + j := by omega
    calc b (s + j + (d - s)) = copyUp b d s n (d + (j + (d - s))) := by
          rw [moved _ inside]
          congr 1
          omega
      _ = copyUp b d s n (s + (j + (d - s))) := copyUp_repeats before inside
      _ = copyUp b d s n (d + j) := by
          congr 1
          omega
      _ = b (s + j) := moved j (by omega)
  · intro period
    refine ⟨fun j => ?_, fun i outside => copyUp_outside outside⟩
    induction j using Nat.strongRecOn with
    | ind j ih =>
      intro less
      rw [copyUp_repeats before less]
      rcases Nat.lt_or_ge (s + j) d with source | overtaken
      · exact copyUp_outside (.inl source)
      · obtain ⟨k, rfl⟩ : ∃ k, j = k + (d - s) := ⟨j - (d - s), by omega⟩
        rw [show s + (k + (d - s)) = d + k by omega, ih k (by omega) (by omega), ← period k less]
        congr 1
        omega

end Copies

/-- Both functions move every byte, exactly if the destination does not begin inside the source
or the bytes of the source repeat at that distance. The function of the kernel always does. -/
theorem memmoves_agree_iff {b : Bytes} {dst src n : Nat} (dstInside : dst + n ≤ 2 ^ 32)
    (srcInside : src + n ≤ 2 ^ 32) :
    Shifted b dst src n (memmove b dst src n) ∧
    (Shifted b dst src n (Ulib.memmove b dst src n) ↔
      (src < dst → dst < src + n → ∀ j, j + (dst - src) < n →
        b (src + j + (dst - src)) = b (src + j))) := by
  constructor
  · unfold memmove
    split
    · rename_i overlap
      exact copyDown_shifted overlap.1
    · rename_i apart
      refine copyUp_shifted fun before => ?_
      rw [Nat.mod_eq_of_lt (by omega)] at apart
      omega
  · unfold Ulib.memmove
    rw [Int.toNat_natCast]
    by_cases before : src < dst
    · rw [copyUp_shifted_iff before]
      exact ⟨fun period _ _ => period, fun period j inside => period before (by omega) j inside⟩
    · exact iff_of_true (copyUp_shifted fun less => absurd less before) fun less =>
        absurd less before

/-- Two bytes to the place one byte before. -/
theorem memmoves_agree_downwards : Shifted (fun i => UInt8.ofNat i) 0 1 2
    (Ulib.memmove (fun i => UInt8.ofNat i) 0 1 2) :=
  (memmoves_agree_iff (by decide) (by decide)).2.mpr fun before => absurd before (by decide)

/-- Two bytes to the place one byte further on. -/
theorem ulib_memmove_overwrites :
    Shifted (fun i => UInt8.ofNat i) 1 0 2 (memmove (fun i => UInt8.ofNat i) 1 0 2) ∧
    ¬ Shifted (fun i => UInt8.ofNat i) 1 0 2 (Ulib.memmove (fun i => UInt8.ofNat i) 1 0 2) := by
  constructor
  · exact copyDown_shifted (by decide)
  · intro moved
    exact absurd (moved.1 1 (by decide)) (by decide)

end MmapXv6
