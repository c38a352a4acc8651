import Mathlib.Data.List.Pairwise
import Mathlib.Data.Set.Insert

/-! A set of numbers that is tiled by blocks. A block is its first number and how many units
of U numbers it has; adjacent blocks may be joined and a block may be cut. -/
namespace Lib

def Inside (U : Nat) (b : Nat × Nat) (x : Nat) : Prop := b.1 ≤ x ∧ x < b.1 + U * b.2

def Off (U : Nat) (b c : Nat × Nat) : Prop := b.1 + U * b.2 ≤ c.1 ∨ c.1 + U * c.2 ≤ b.1

structure Tiles (U : Nat) (bs : List (Nat × Nat)) (X : Nat → Prop) : Prop where
  pos : ∀ b ∈ bs, 0 < b.2
  apart : bs.Pairwise (Off U)
  cover : ∀ x, X x ↔ ∃ b ∈ bs, Inside U b x

section Tiles
variable {U a s t : Nat} {bs cs : List (Nat × Nat)} {X : Nat → Prop}

theorem Off.symm {b c : Nat × Nat} (h : Off U b c) : Off U c b := Or.symm h

theorem Tiles.perm (h : Tiles U bs X) (same : bs.Perm cs) : Tiles U cs X :=
  ⟨fun b mem => h.pos b (same.mem_iff.mpr mem), (same.pairwise_iff Off.symm).mp h.apart,
    fun x => by simp only [h.cover, same.mem_iff]⟩

theorem inside_join {x : Nat} : Inside U (a, s + t) x ↔ Inside U (a, s) x ∨
    Inside U (a + U * s, t) x := by
  simp only [Inside, Nat.mul_add]
  omega

theorem off_join {b : Nat × Nat} (unit : 0 < U) (pos : 0 < b.2) :
    Off U (a, s + t) b ↔ Off U (a, s) b ∧ Off U (a + U * s, t) b := by
  have := Nat.mul_pos unit pos
  simp only [Off, Nat.mul_add]
  omega

theorem tiles_join (unit : 0 < U) (hs : 0 < s) (ht : 0 < t) :
    Tiles U ((a, s) :: (a + U * s, t) :: bs) X ↔ Tiles U ((a, s + t) :: bs) X := by
  have seam : Off U (a, s) (a + U * s, t) := .inl (Nat.le_refl _)
  constructor
  · intro h
    have pos (b) (mem : b ∈ bs) : 0 < b.2 :=
        h.pos b (List.mem_cons_of_mem _ (List.mem_cons_of_mem _ mem))
    have first := List.pairwise_cons.mp h.apart
    have second := List.pairwise_cons.mp first.2
    refine ⟨?_, List.pairwise_cons.mpr ⟨fun b mem => ?_, second.2⟩, fun x => ?_⟩
    · exact List.forall_mem_cons.mpr ⟨Nat.add_pos_left hs t, pos⟩
    · exact (off_join unit (pos b mem)).mpr ⟨first.1 b (List.mem_cons_of_mem _ mem), second.1 b mem⟩
    · rw [h.cover]
      simp [inside_join, or_assoc]
  · intro h
    have pos (b) (mem : b ∈ bs) : 0 < b.2 := h.pos b (List.mem_cons_of_mem _ mem)
    have first := List.pairwise_cons.mp h.apart
    have off (b) (mem : b ∈ bs) := (off_join unit (pos b mem)).mp (first.1 b mem)
    refine ⟨?_, List.pairwise_cons.mpr ⟨fun b mem => ?_, List.pairwise_cons.mpr
      ⟨fun b mem => (off b mem).2, first.2⟩⟩, fun x => ?_⟩
    · simpa using ⟨hs, ht, fun x y mem => pos (x, y) mem⟩
    · rcases List.mem_cons.mp mem with rfl | mem
      · exact seam
      · exact (off b mem).1
    · rw [h.cover]
      simp [inside_join, or_assoc]

theorem Tiles.add (h : Tiles U bs X) {n : Nat} (pos : 0 < n) (above : ∀ b ∈ bs, b.1 + U * b.2 ≤ a) :
    Tiles U ((a, n) :: bs) fun x => X x ∨ Inside U (a, n) x := by
  refine ⟨?_, List.pairwise_cons.mpr ⟨fun b mem => .inr (above b mem), h.apart⟩, fun x => ?_⟩
  · simpa using ⟨pos, fun x y mem => h.pos (x, y) mem⟩
  · rw [h.cover]
    simp [or_comm]

theorem Tiles.bounds (h : Tiles U bs X) (unit : 0 < U) {low high : Nat}
    (within : ∀ x, X x → low ≤ x ∧ x < high)
    {b : Nat × Nat} (mem : b ∈ bs) : low ≤ b.1 ∧ b.1 + U * b.2 ≤ high := by
  have some := Nat.mul_pos unit (h.pos b mem)
  have first := within b.1 ((h.cover b.1).mpr ⟨b, mem, by simp only [Inside]; omega⟩)
  have last := within (b.1 + U * b.2 - 1) ((h.cover _).mpr ⟨b, mem, by simp only [Inside]; omega⟩)
  omega

end Tiles

end Lib
