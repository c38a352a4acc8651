import Mathlib.Data.List.Nodup

/-! Sequences of writes to a store. A crash leaves the result of a prefix, so the
lemmas say what a write list does to a cell without saying how far it got. -/
namespace Lib

section Writes
variable {K V : Type*} [DecidableEq K]

def applyWrites (d : K → V) : List (K × V) → K → V
  | [] => d
  | w :: ws => applyWrites (Function.update d w.1 w.2) ws

theorem applyWrites_append (d : K → V) (ws vs : List (K × V)) :
    applyWrites d (ws ++ vs) = applyWrites (applyWrites d ws) vs := by
  induction ws generalizing d with
  | nil => rfl
  | cons w ws ih => exact ih _

theorem applyWrites_of_not_mem {ws : List (K × V)} {x : K} (untouched : ∀ w ∈ ws, w.1 ≠ x)
    (d : K → V) : applyWrites d ws x = d x := by
  induction ws generalizing d with
  | nil => rfl
  | cons w ws ih =>
    have head : w.1 ≠ x := untouched w List.mem_cons_self
    rw [applyWrites, ih (fun v hv => untouched v (List.mem_cons_of_mem w hv)),
      Function.update_of_ne (Ne.symm head)]

theorem applyWrites_of_mem {ws : List (K × V)} (once : (ws.map Prod.fst).Nodup) {x : K} {v : V}
    (written : (x, v) ∈ ws) (d : K → V) : applyWrites d ws x = v := by
  induction ws generalizing d with
  | nil => cases written
  | cons w ws ih =>
    rw [List.map_cons, List.nodup_cons] at once
    rcases List.mem_cons.mp written with e | later
    · subst e
      have rest : ∀ u ∈ ws, u.1 ≠ x := fun u hu e =>
        once.1 (List.mem_map.mpr ⟨u, hu, e⟩)
      rw [applyWrites, applyWrites_of_not_mem rest, Function.update_self]
    · exact ih once.2 later _

end Writes

end Lib
