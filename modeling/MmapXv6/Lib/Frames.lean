import Mathlib.Data.List.Nodup

/-! Exclusive ownership of the pages that a free list hands out: the keys of a partial
map own their pages, no page has two owners, and no owned page is free. -/
namespace Lib

open Function

section Frames
variable {K F : Type*} {owner other : K → Option F} {free : List F} {f : F} {k : K}

structure Exclusive (owner : K → Option F) (free : List F) : Prop where
  inj : ∀ {k l f}, owner k = some f → owner l = some f → k = l
  used : ∀ {k f}, owner k = some f → f ∉ free
  nodup : free.Nodup

theorem Exclusive.discard (h : Exclusive owner (f :: free)) : Exclusive owner free where
  inj := h.inj
  used := fun owned mem => h.used owned (List.mem_cons_of_mem f mem)
  nodup := (List.nodup_cons.mp h.nodup).2

theorem Exclusive.suffix {rest : List F} (h : Exclusive owner free) (s : rest <:+ free) :
    Exclusive owner rest where
  inj := h.inj
  used := fun owned mem => h.used owned (s.subset mem)
  nodup := h.nodup.sublist s.sublist

theorem Exclusive.forget (h : Exclusive owner free)
    (fewer : ∀ k f, other k = some f → owner k = some f) : Exclusive other free where
  inj := fun hk hl => h.inj (fewer _ _ hk) (fewer _ _ hl)
  used := fun hk => h.used (fewer _ _ hk)
  nodup := h.nodup

variable [DecidableEq K]

theorem Exclusive.take (h : Exclusive owner (f :: free)) (k : K) :
    Exclusive (update owner k (some f)) free := by
  have unowned : ∀ l, owner l ≠ some f := fun l owned => h.used owned List.mem_cons_self
  constructor
  · intro a b g ha hb
    rw [update_apply] at ha hb
    split at ha <;> split at hb
    · exact ‹a = k›.trans ‹b = k›.symm
    · exact absurd ((Option.some.inj ha) ▸ hb) (unowned b)
    · exact absurd ((Option.some.inj hb) ▸ ha) (unowned a)
    · exact h.inj ha hb
  · intro a g ha mem
    rw [update_apply] at ha
    split at ha
    · exact (List.nodup_cons.mp h.nodup).1 ((Option.some.inj ha) ▸ mem)
    · exact h.used ha (List.mem_cons_of_mem f mem)
  · exact (List.nodup_cons.mp h.nodup).2

theorem Exclusive.release (h : Exclusive owner free) (owned : owner k = some f) :
    Exclusive (update owner k none) (f :: free) := by
  have kept : ∀ l g, update owner k none l = some g → l ≠ k ∧ owner l = some g := by
    intro l g hl
    rw [update_apply] at hl
    split at hl
    · cases hl
    · exact ⟨‹_›, hl⟩
  constructor
  · intro a b g ha hb
    exact h.inj (kept a g ha).2 (kept b g hb).2
  · intro a g ha mem
    obtain ⟨ne, ha⟩ := kept a g ha
    rcases List.mem_cons.mp mem with e | mem
    · exact ne (h.inj ha (e ▸ owned))
    · exact h.used ha mem
  · exact List.nodup_cons.mpr ⟨h.used owned, h.nodup⟩

end Frames

end Lib
