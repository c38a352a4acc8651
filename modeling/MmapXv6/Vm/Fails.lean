import MmapXv6.Lib.Post
import MmapXv6.Vm.Pages

/-! The errors of the functions of vm.c. Whatever page directory they are given, they
stop at a page that is mapped twice, a page that cannot be freed or, for a copy, a
missing page table, and at nothing of the file system. -/
namespace MmapXv6

open Lib

def MemFails (e : Panic) : Prop :=
  e = .remap ∨ e = .kfree ∨ e = .loops ∨ e = .copyuvmNoPte

theorem mappagesLoop_fails (n : Nat) (u : Uvm) (a last : Nat) (e : Pte) :
    Ensures (mappagesLoop n u a last e) (fun _ => True) MemFails := by
  induction n generalizing u a e with
  | zero => exact .inr (.inr (.inl rfl))
  | succ n ih =>
    unfold mappagesLoop
    split
    · trivial
    · split
      · exact .inl rfl
      · split
        · trivial
        · exact ih _ _ _

theorem kfree_fails (k : Kmem) (page : Nat) :
    Ensures (k.kfree page) (fun _ => True) MemFails := by
  unfold Kmem.kfree
  split
  · exact .inr (.inl rfl)
  · trivial

theorem deallocuvmLoop_fails (n : Nat) (u : Uvm) (a oldsz : Nat) :
    Ensures (deallocuvmLoop n u a oldsz) (fun _ => True) MemFails := by
  induction n generalizing u a with
  | zero => exact .inr (.inr (.inl rfl))
  | succ n ih =>
    have page : ∀ u, Ensures (deallocPage u a) (fun _ => True) MemFails := by
      intro u
      unfold deallocPage
      split
      · trivial
      · split
        · exact .inr (.inl rfl)
        · exact (kfree_fails _ _).bind fun _ _ => trivial
    unfold deallocuvmLoop
    split
    · split
      · exact ih _ _
      · exact (page _).bind fun _ _ => ih _ _
    · trivial

theorem deallocuvm_fails (u : Uvm) (oldsz newsz : Nat) :
    Ensures (deallocuvm u oldsz newsz) (fun _ => True) MemFails := by
  unfold deallocuvm
  split
  · trivial
  · exact (deallocuvmLoop_fails _ _ _ _).bind fun _ _ => trivial

theorem allocuvmLoop_fails (n : Nat) (u : Uvm) (a oldsz newsz : Nat) :
    Ensures (allocuvmLoop n u a oldsz newsz) (fun _ => True) MemFails := by
  induction n generalizing u a with
  | zero => exact .inr (.inr (.inl rfl))
  | succ n ih =>
    unfold allocuvmLoop
    split
    · split
      · exact (deallocuvm_fails _ _ _).bind fun _ _ => trivial
      · exact (mappagesLoop_fails _ _ _ _ _).bind fun _ _ => ih _ _
    · trivial

theorem allocuvm_fails (u : Uvm) (oldsz newsz : Nat) :
    Ensures (allocuvm u oldsz newsz) (fun _ => True) MemFails := by
  unfold allocuvm
  split
  · trivial
  · split
    · trivial
    · exact allocuvmLoop_fails _ _ _ _ _

theorem unmappages_fails (u : Uvm) (va size : Nat) :
    Ensures (unmappages u va size) (fun _ => True) MemFails :=
  (deallocuvm_fails _ _ _).bind fun _ _ => trivial

theorem setupkvm_fails (k : Kmem) : Ensures (setupkvm k) (fun _ => True) MemFails := by
  have loop : ∀ maps u, Ensures (setupkvmLoop maps u) (fun _ => True) MemFails := by
    intro maps
    induction maps with
    | nil => exact fun _ => trivial
    | cons m maps ih =>
      intro u
      refine (mappagesLoop_fails _ _ _ _ _).bind fun ⟨r, u⟩ _ => ?_
      dsimp only
      split
      · trivial
      · exact ih _
  unfold setupkvm
  split
  · trivial
  · exact (loop _ _).bind fun _ _ => trivial

theorem freevm_fails (u : Uvm) : Ensures (freevm u) (fun _ => True) MemFails := by
  have first := deallocuvm_fails u KERNBASE 0
  unfold freevm
  -- with the bounds in view, unification would run the loops
  generalize deallocuvm u KERNBASE 0 = dealloc at first ⊢
  generalize List.range NPDENTRIES = entries
  refine first.bind fun r _ => ?_
  refine (Ensures.foldlM (fun _ => True) _ (fun k i _ _ => ?_) trivial).bind fun k _ =>
    kfree_fails _ _
  split
  · trivial
  · exact kfree_fails _ _

theorem copyuvmLoop_fails (d : PgDir) (n : Nat) (u : Uvm) (i sz : Nat) :
    Ensures (copyuvmLoop d n u i sz) (fun _ => True) MemFails := by
  induction n generalizing u i with
  | zero => exact .inr (.inr (.inl rfl))
  | succ n ih =>
    unfold copyuvmLoop
    split
    · split
      · exact .inr (.inr (.inr rfl))
      · split
        · exact ih _ _
        · split
          · trivial
          · refine (mappagesLoop_fails _ _ _ _ _).bind fun ⟨r, u⟩ _ => ?_
            dsimp only
            split
            · trivial
            · exact ih _ _
    · trivial

theorem copyuvm_fails (d : PgDir) (k : Kmem) (sz : Nat) :
    Ensures (copyuvm d k sz) (fun _ => True) MemFails := by
  refine (setupkvm_fails k).bind fun r _ => ?_
  split
  · trivial
  · refine (copyuvmLoop_fails _ _ _ _ _).bind fun ⟨ok, u⟩ _ => ?_
    dsimp only
    split
    · trivial
    · exact (freevm_fails _).bind fun _ _ => trivial

end MmapXv6
