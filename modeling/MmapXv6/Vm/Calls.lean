import MmapXv6.Vm.Fault
import MmapXv6.Vm.Returns

/-! The page faults and the memory calls of a process as movements of pages. What they
keep whatever the process does: page tables stay, and a page that comes to the free list
is one that kfree has checked. -/
namespace MmapXv6

open Lib (bind_ok)

section Moves
variable {s t : Vm}

theorem Vm.fill_moves {v : Nat} {e : Pte} (there : s.entry v = some e) (page : Lib.Bytes) :
    Moves True True s.uvm (s.fill v e page).uvm :=
  .tail (.single (.flags { e with dirty := true } there rfl)) (.write page (.inr trivial))

theorem Loaded.moves {v : Nat} (h : Loaded s v t) : Moves True True s.uvm t.uvm := by
  cases h with
  | nothing _ => exact .refl
  | @page fs _ page _ there => exact Vm.fill_moves (s := { s with fs := fs }) there page

theorem trap_moves {cr2 : Nat} {user : Bool} (done : trap s cr2 user = .ok t) :
    Moves True True s.uvm t.uvm := by
  unfold trap at done
  split at done
  · obtain ⟨⟨r, u⟩, grown, rest⟩ := bind_ok.mp done
    dsimp only at rest
    split at rest
    · cases rest
    · cases rest
      exact (allocuvm_moves grown).mono (fun _ => trivial) id
  · split at done
    · obtain ⟨⟨r, u⟩, grown, rest⟩ := bind_ok.mp done
      dsimp only at rest
      split at rest
      · cases rest
      · have moves : Moves True True s.uvm u := (allocuvm_moves grown).mono (fun _ => trivial) id
        exact moves.trans (loadMapped_loaded rest).moves
    · split at done
      · cases done
        exact .refl
      · cases done

theorem access_moves {a : Nat} {write user : Bool} {r : Option Pte}
    (done : s.access a write user = .ok (r, t)) : Moves True True s.uvm t.uvm := by
  unfold Vm.access at done
  split at done
  · cases done
    exact .refl
  · obtain ⟨w, trapped, rest⟩ := bind_ok.mp done
    split at rest
    · cases rest
      exact trap_moves trapped
    · split at rest
      · cases rest
        exact trap_moves trapped
      · cases rest

theorem load_moves {a : Nat} {b : Option UInt8} (done : s.load a = .ok (b, t)) :
    Moves True True s.uvm t.uvm := by
  obtain ⟨⟨r, w⟩, accessed, rest⟩ := bind_ok.mp done
  have moves := access_moves accessed
  cases r with
  | none =>
    cases rest
    exact moves
  | some e =>
    cases rest
    exact moves

theorem store_moves {a : Nat} {b : UInt8} {user ok : Bool} (word : a < 2 ^ 32)
    (done : s.store a b user = .ok (ok, t)) : Moves True True s.uvm t.uvm := by
  obtain ⟨⟨r, w⟩, accessed, rest⟩ := bind_ok.mp done
  have moves := access_moves accessed
  cases access_accessed word accessed with
  | killed _ _ =>
    cases rest
    exact moves
  | done _ there =>
    cases rest
    exact moves.trans (Vm.fill_moves there _)

theorem storeWord_moves {addr w : Nat} (done : s.storeWord addr w = .ok t) :
    Moves True True s.uvm t.uvm := by
  refine Lib.foldlM_ok (fun x => Moves True True s.uvm x.uvm) _ ?_ s t .refl done
  intro x p y mem before put
  obtain ⟨⟨ok, z⟩, stored, eq⟩ := bind_ok.mp put
  cases eq
  refine before.trans (store_moves ?_ stored)
  obtain ⟨j, -, rfl⟩ := List.mem_map.mp mem
  exact Nat.mod_lt _ (by decide)

end Moves

structure Kmem.Keeps (k k' : Kmem) : Prop where
  kend : k'.kend = k.kend
  kdata : k'.kdata = k.kdata
  free : ∀ x ∈ k'.freelist, x ∈ k.freelist ∨ k.kend ≤ x ∧ x < PHYSTOP / PGSIZE

section Keeps
variable {u w : Uvm} {k k' k'' : Kmem} {leak stray : Prop}

theorem Kmem.Keeps.refl (k : Kmem) : k.Keeps k := ⟨rfl, rfl, fun _ h => .inl h⟩

theorem Kmem.Keeps.trans (h : k.Keeps k') (h' : k'.Keeps k'') : k.Keeps k'' := by
  refine ⟨h'.kend.trans h.kend, h'.kdata.trans h.kdata, fun x mem => ?_⟩
  rcases h'.free x mem with before | legal
  · exact h.free x before
  · rw [h.kend] at legal
    exact .inr legal

theorem Kmem.Legal.keeps (legal : k.Legal) (h : k.Keeps k') : k'.Legal := by
  refine ⟨by rw [h.kend]; exact legal.zero, fun x mem => ?_, by rw [h.kdata]; exact legal.data⟩
  rw [h.kend]
  exact (h.free x mem).elim (legal.page x) id

theorem kfree_keeps {pa : Nat} (freed : k.kfree pa = .ok k') : k.Keeps k' := by
  obtain ⟨kend, kdata, legal⟩ := kfree_kend freed
  refine ⟨kend, kdata, fun x mem => ?_⟩
  unfold Kmem.kfree at freed
  split at freed
  · cases freed
  · cases freed
    rcases List.mem_cons.mp mem with rfl | before
    · exact .inr legal
    · exact .inl before

theorem Kmem.Hands.keeps {page : Nat} (hands : k.Hands k' page) : k.Keeps k' :=
  ⟨hands.kend, hands.kdata, fun _ mem => .inl (hands.subset mem)⟩

theorem Moves.keeps (h : Moves leak stray u w) : u.kmem.Keeps w.kmem := by
  induction h with
  | refl => exact .refl _
  | tail _ one ih =>
    refine ih.trans ?_
    cases one with
    | table _ _ hands => exact hands.keeps
    | map _ _ _ hands => exact hands.keeps
    | unmap _ _ freed => exact kfree_keeps freed
    | kernel => exact .refl _
    | flags => exact .refl _
    | write => exact ⟨rfl, rfl, fun _ mem => .inl mem⟩
    | lose _ hands => exact hands.keeps

theorem deallocPage_keeps {a : Nat} (done : deallocPage u a = .ok w) :
    u.kmem.Keeps w.kmem ∧ w.pgdir.tab = u.pgdir.tab := by
  unfold deallocPage at done
  split at done
  · cases done
    exact ⟨.refl _, rfl⟩
  · split at done
    · cases done
    · obtain ⟨k, freed, eq⟩ := bind_ok.mp done
      cases eq
      exact ⟨kfree_keeps freed, rfl⟩

theorem deallocuvmLoop_keeps {n a oldsz : Nat} (done : deallocuvmLoop n u a oldsz = .ok w) :
    u.kmem.Keeps w.kmem ∧ w.pgdir.tab = u.pgdir.tab := by
  induction n generalizing u a with
  | zero => cases done
  | succ n ih =>
    unfold deallocuvmLoop at done
    split at done
    · rw [walkpgdir_noalloc] at done
      split at done
      · exact ih done
      · rename_i v walked
        obtain ⟨-, rfl⟩ : _ ∧ u = v := by simpa using walked
        obtain ⟨x, page, rest⟩ := bind_ok.mp done
        obtain ⟨keeps, tab⟩ := deallocPage_keeps page
        obtain ⟨keeps', tab'⟩ := ih rest
        exact ⟨keeps.trans keeps', tab'.trans tab⟩
    · cases done
      exact ⟨.refl _, rfl⟩

theorem deallocuvm_keeps {oldsz newsz r : Nat} (done : deallocuvm u oldsz newsz = .ok (r, w)) :
    u.kmem.Keeps w.kmem ∧ w.pgdir.tab = u.pgdir.tab := by
  unfold deallocuvm at done
  split at done
  · cases done
    exact ⟨.refl _, rfl⟩
  · obtain ⟨x, loop, eq⟩ := bind_ok.mp done
    cases eq
    exact deallocuvmLoop_keeps loop

theorem freevm_keeps (done : freevm u = .ok k) : u.kmem.Keeps k := by
  obtain ⟨⟨r, w⟩, dealloc, rest⟩ := bind_ok.mp done
  obtain ⟨m, tables, last⟩ := bind_ok.mp rest
  refine (deallocuvm_keeps dealloc).1.trans (Kmem.Keeps.trans ?_ (kfree_keeps last))
  refine Lib.foldlM_ok (fun k => w.kmem.Keeps k) _ ?_ _ _ (.refl _) tables
  intro k i k' _ before step
  split at step
  · cases step
    exact before
  · exact before.trans (kfree_keeps step)

theorem KvmMade.keeps {d : Option PgDir} (h : KvmMade k d k') : k.Keeps k' := by
  cases h with
  | none _ empty kend kdata _ =>
    refine ⟨kend, kdata, fun x mem => ?_⟩
    rw [empty] at mem
    cases mem
  | @some d _ _ _ _ _ count kend kdata _ _ _ =>
    refine ⟨kend, kdata, fun x mem => .inl ?_⟩
    have pos := Uvm.count_free (u := ⟨d, k'⟩) mem
    rw [count] at pos
    exact List.count_pos_iff.mp pos

end Keeps

end MmapXv6
