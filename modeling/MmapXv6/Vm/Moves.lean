import MmapXv6.Vm.Growth
import MmapXv6.Lib.Fibre

/-! Where the pages of the allocator go. Every function of vm.c is a sequence of a few
movements: a page leaves the free list and becomes a page table or a user page, or is
lost, and a user page goes back. What holds of one movement holds of all of them: the
number of times that a page is owned or free never grows, and a page that is neither
keeps its bytes. -/
namespace MmapXv6

open Lib (bind_ok fibre)
open Function
open Relation (ReflTransGen)

variable {e : Pte} {k k' : Kmem} {pa v : Nat} {r : Int}

structure Kmem.Hands (k k' : Kmem) (page : Nat) : Prop where
  list : k.freelist.Perm (page :: k'.freelist)
  mem : ∀ f, f ≠ page → k'.mem f = k.mem f
  kend : k'.kend = k.kend
  kdata : k'.kdata = k.kdata

/-- What happens to pages. A loss needs the condition leak, and a write that does not
go to the directory's own user pages needs the condition stray. -/
inductive Move (leak stray : Prop) (u : Uvm) : Uvm → Prop where
  | table {i page : Nat} {k : Kmem} : i < NPDENTRIES → u.pgdir.tab i = none →
      u.kmem.Hands k page → Move leak stray u ⟨u.pgdir.addTable i page, k⟩
  | map {v : Nat} {e : Pte} {k : Kmem} : v < UPAGES → (u.pgdir.tab (v / NPTENTRIES)).isSome →
      u.pgdir.entry v = none → u.kmem.Hands k e.pa →
      Move leak stray u ⟨u.pgdir.set v (some e), k⟩
  | unmap {v : Nat} {e : Pte} {k : Kmem} : v < UPAGES → u.pgdir.entry v = some e →
      u.kmem.kfree e.pa = .ok k → Move leak stray u ⟨u.pgdir.set v none, k⟩
  | kernel (v : Nat) (e : Option Pte) : UPAGES ≤ v →
      Move leak stray u { u with pgdir := u.pgdir.set v e }
  | flags {v : Nat} {e : Pte} (w : Pte) : u.pgdir.entry v = some e → w.pa = e.pa →
      Move leak stray u { u with pgdir := u.pgdir.set v (some w) }
  | write {pa : Nat} (page : Lib.Bytes) :
      ((∃ v e, v < UPAGES ∧ u.pgdir.entry v = some e ∧ e.pa = pa) ∨ stray) →
      Move leak stray u { u with kmem := { u.kmem with mem := update u.kmem.mem pa page } }
  | lose {page : Nat} {k : Kmem} : leak → u.kmem.Hands k page → Move leak stray u ⟨u.pgdir, k⟩

abbrev Moves (leak stray : Prop) : Uvm → Uvm → Prop := ReflTransGen (Move leak stray)

section Hands
variable {k k' k'' : Kmem} {page other : Nat}

theorem kalloc_hands (taken : k.kalloc = some (page, k')) (bytes : Lib.Bytes) :
    k.Hands { k' with mem := update k'.mem page bytes } page := by
  unfold Kmem.kalloc at taken
  split at taken
  · cases taken
  · rename_i list
    cases taken
    exact ⟨by rw [list], fun f ne => update_of_ne ne _ _, rfl, rfl⟩

theorem Kmem.Hands.swap (first : k.Hands k' page) (second : k'.Hands k'' other) :
    ∃ w, k.Hands w other ∧ w.Hands k'' page := by
  refine ⟨{ k'' with
    freelist := page :: k''.freelist
    mem := update k''.mem page (k.mem page) }, ⟨?_, fun f ne => ?_, ?_, ?_⟩,
    ⟨.refl _, fun f ne => (update_of_ne ne _ _).symm, rfl, rfl⟩⟩
  · exact (first.list.trans (second.list.cons page)).trans (.swap other page _)
  · change update k''.mem page (k.mem page) f = k.mem f
    rw [update_apply]
    split
    · rw [‹f = page›]
    · rw [second.mem f ne, first.mem f ‹_›]
  · exact second.kend.trans first.kend
  · exact second.kdata.trans first.kdata

end Hands

theorem Moves.mono {leak leak' stray stray' : Prop} {u w : Uvm} (h : Moves leak stray u w)
    (lost : leak → leak') (strays : stray → stray') : Moves leak' stray' u w := by
  refine ReflTransGen.mono (fun a b one => ?_) _ _ h
  cases one with
  | table index absent hands => exact .table index absent hands
  | map user table none hands => exact .map user table none hands
  | unmap user there freed => exact .unmap user there freed
  | kernel v e high => exact .kernel v e high
  | flags e there same => exact .flags e there same
  | write page own => exact .write page (own.imp_right strays)
  | lose yes hands => exact .lose (lost yes) hands

def PgDir.has (d : PgDir) (i : Nat) : Bool := (d.tab i).isSome

section Count

/-- How often a page occurs in a directory: as the directory itself, as a page table
and behind the present entries of the user's half. -/
def PgDir.count (d : PgDir) (x : Nat) : Nat :=
  (if d.page = x then 1 else 0) + (fibre (fun i : Fin NPDENTRIES => d.tab i) x).card +
    (fibre (fun v : Fin UPAGES => d.owner v) x).card

def Uvm.count (u : Uvm) (x : Nat) : Nat := u.pgdir.count x + u.kmem.freelist.count x

variable {d : PgDir} {u w : Uvm} {k : Kmem} {leak stray : Prop}

theorem restrict_update {n : Nat} (low : v < n) (f : Nat → Option Nat) (y : Option Nat) :
    (fun i : Fin n => update f v y i) =
      update (fun i : Fin n => f i) ⟨v, low⟩ y := by
  funext i
  by_cases e : i = ⟨v, low⟩
  · subst e
    simp
  · have ne : i.1 ≠ v := fun same => e (Fin.ext same)
    simp [ne, e]

theorem PgDir.count_addTable {i : Nat} (index : i < NPDENTRIES) (absent : d.tab i = none)
    (page x : Nat) : (d.addTable i page).count x = d.count x + if x = page then 1 else 0 := by
  have owner : (d.addTable i page).owner = d.owner := by
    funext v
    unfold PgDir.owner
    rw [d.entry_addTable page absent]
  have tab : (fun j : Fin NPDENTRIES => (d.addTable i page).tab j) =
      update (fun j : Fin NPDENTRIES => d.tab j) ⟨i, index⟩ (some page) :=
    restrict_update index d.tab (some page)
  unfold PgDir.count
  rw [owner, tab, Lib.card_fibre_set (by exact absent)]
  change (if d.page = x then 1 else 0) + _ + _ = _
  omega

theorem PgDir.count_map (user : v < UPAGES) (table : (d.tab (v / NPTENTRIES)).isSome)
    (free : d.entry v = none) (e : Pte) (x : Nat) :
    (d.set v (some e)).count x = d.count x + if x = e.pa then 1 else 0 := by
  have owner : (fun i : Fin UPAGES => (d.set v (some e)).owner i) =
      update (fun i : Fin UPAGES => d.owner i) ⟨v, user⟩ (some e.pa) := by
    rw [PgDir.owner_set user (d.entry_set (some e) table)]
    exact restrict_update user d.owner (some e.pa)
  have none : d.owner v = none := by simp [PgDir.owner, free]
  unfold PgDir.count
  rw [owner, Lib.card_fibre_set (by exact none)]
  change (if d.page = x then 1 else 0) + (fibre (fun i : Fin NPDENTRIES => d.tab i) x).card + _ = _
  omega

theorem PgDir.count_unmap (user : v < UPAGES) (there : d.entry v = some e)
    (x : Nat) : (d.set v none).count x + (if x = e.pa then 1 else 0) = d.count x := by
  have owner : (fun i : Fin UPAGES => (d.set v none).owner i) =
      update (fun i : Fin UPAGES => d.owner i) ⟨v, user⟩ none := by
    rw [PgDir.owner_set user (d.entry_set none (PgDir.table_of_entry there))]
    exact restrict_update user d.owner none
  unfold PgDir.count
  rw [owner, ← Lib.card_fibre_clear (f := fun i : Fin UPAGES => d.owner i) (x := ⟨v, user⟩)
    (PgDir.owner_some user there) x]
  change (if d.page = x then 1 else 0) +
    (fibre (fun i : Fin NPDENTRIES => d.tab i) x).card + _ + _ = _
  omega

theorem PgDir.count_kernel (high : UPAGES ≤ v) (e : Option Pte) (x : Nat) :
    (d.set v e).count x = d.count x := by
  have owner : (d.set v e).owner = d.owner := by
    funext i
    unfold PgDir.owner
    split
    · rw [d.entry_set_ne e (by omega)]
    · rfl
  unfold PgDir.count
  rw [owner]
  rfl

theorem PgDir.count_flags {w : Pte} (there : d.entry v = some e) (same : w.pa = e.pa)
    (x : Nat) : (d.set v (some w)).count x = d.count x := by
  have owner : (d.set v (some w)).owner = d.owner := by
    funext i
    unfold PgDir.owner
    rw [d.entry_set (some w) (PgDir.table_of_entry there)]
    by_cases here : i = v
    · subst here
      simp [there, same]
    · rw [update_of_ne here]
  unfold PgDir.count
  rw [owner]
  rfl

theorem Kmem.Hands.count {page : Nat} (h : k.Hands k' page) (x : Nat) :
    k.freelist.count x = k'.freelist.count x + if x = page then 1 else 0 := by
  rw [h.list.count_eq, List.count_cons]
  simp only [beq_iff_eq, @eq_comm _ page x]

theorem kfree_count (h : k.kfree pa = .ok k') (x : Nat) :
    k'.freelist.count x = k.freelist.count x + if x = pa then 1 else 0 := by
  rw [(kfree_ok h).1, List.count_cons]
  simp only [beq_iff_eq, @eq_comm _ pa x]

theorem Move.count_le (h : Move leak stray u w) (x : Nat) :
    w.count x ≤ u.count x ∧ (¬leak → w.count x = u.count x) := by
  unfold Uvm.count
  cases h <;> dsimp only
  case table index absent hands =>
    have := hands.count x
    rw [PgDir.count_addTable index absent]
    omega
  case map user table none hands =>
    have := hands.count x
    rw [PgDir.count_map user table none]
    omega
  case unmap user there freed =>
    have := PgDir.count_unmap user there x
    rw [kfree_count freed]
    omega
  case kernel v e high => simp [PgDir.count_kernel high]
  case flags e there same => simp [PgDir.count_flags there same]
  case write page own => simp
  case lose yes hands =>
    have := hands.count x
    exact ⟨by omega, fun no => absurd yes no⟩

theorem Moves.count_le (h : Moves leak stray u w) (x : Nat) : w.count x ≤ u.count x := by
  induction h with
  | refl => exact Nat.le_refl _
  | tail _ one ih => exact (one.count_le x).1.trans ih

theorem Moves.count_eq (h : Moves False stray u w) (x : Nat) : w.count x = u.count x := by
  induction h with
  | refl => rfl
  | tail _ one ih => exact ((one.count_le x).2 id).trans ih

theorem Move.mem_eq (h : Move leak False u w) {x : Nat} (absent : u.count x = 0) :
    w.kmem.mem x = u.kmem.mem x := by
  have handed : ∀ {k : Kmem} {page : Nat}, u.kmem.Hands k page → k.mem x = u.kmem.mem x := by
    intro k page hands
    refine hands.mem x fun same => ?_
    have := hands.count x
    rw [if_pos same] at this
    unfold Uvm.count at absent
    omega
  have owned : ∀ {v : Nat} {e : Pte}, v < UPAGES → u.pgdir.entry v = some e → x ≠ e.pa := by
    intro v e user there same
    have := PgDir.count_unmap user there x
    rw [if_pos same] at this
    unfold Uvm.count at absent
    omega
  cases h with
  | table _ _ hands => exact handed hands
  | map _ _ _ hands => exact handed hands
  | unmap user there freed =>
    rw [(kfree_ok freed).2]
    exact update_of_ne (owned user there) _ _
  | kernel => rfl
  | flags => rfl
  | write page own =>
    rcases own with ⟨v, e, user, there, rfl⟩ | no
    · exact update_of_ne (owned user there) _ _
    · exact no.elim
  | lose _ hands => exact handed hands

theorem Moves.mem_eq (h : Moves leak False u w) {x : Nat} (absent : u.count x = 0) :
    w.kmem.mem x = u.kmem.mem x := by
  induction h with
  | refl => rfl
  | tail before one ih =>
    have absent' := Moves.count_le before x
    exact (one.mem_eq (by omega)).trans ih

theorem kfree_kend (h : k.kfree pa = .ok k') :
    k'.kend = k.kend ∧ k'.kdata = k.kdata ∧ k.kend ≤ pa ∧ pa < PHYSTOP / PGSIZE := by
  unfold Kmem.kfree at h
  split at h
  · cases h
  · cases h
    exact ⟨rfl, rfl, by omega, by omega⟩

theorem Moves.fixed (h : Moves leak stray u w) :
    w.kmem.kend = u.kmem.kend ∧ w.kmem.kdata = u.kmem.kdata := by
  induction h with
  | refl => exact ⟨rfl, rfl⟩
  | tail _ one ih =>
    rw [← ih.1, ← ih.2]
    cases one with
    | table _ _ hands => exact ⟨hands.kend, hands.kdata⟩
    | map _ _ _ hands => exact ⟨hands.kend, hands.kdata⟩
    | unmap _ _ freed => exact ⟨(kfree_kend freed).1, (kfree_kend freed).2.1⟩
    | kernel => exact ⟨rfl, rfl⟩
    | flags => exact ⟨rfl, rfl⟩
    | write => exact ⟨rfl, rfl⟩
    | lose _ hands => exact ⟨hands.kend, hands.kdata⟩

theorem Moves.tables (h : Moves leak stray u w) {i : Nat} (there : (u.pgdir.tab i).isSome) :
    (w.pgdir.tab i).isSome := by
  induction h with
  | refl => exact there
  | tail _ one ih =>
    cases one with
    | table _ _ _ =>
      simp only [PgDir.addTable, update_apply]
      split
      · rfl
      · exact ih
    | map => exact ih
    | unmap => exact ih
    | kernel => exact ih
    | flags => exact ih
    | write => exact ih
    | lose => exact ih

end Count

section Functions
variable {u w : Uvm} {leak stray : Prop} {a : Nat}

theorem walkpgdir_moves (word : a < 2 ^ 32) (walked : walkpgdir u a true = some w) :
    Moves leak stray u w := by
  unfold walkpgdir at walked
  split at walked
  · cases walked
    exact .refl
  · rename_i absent
    rw [if_pos rfl] at walked
    split at walked
    · cases walked
    · rename_i page k taken
      cases walked
      refine .single (.table ?_ absent (kalloc_hands taken _))
      unfold PDX
      simp only [PGSIZE, NPTENTRIES, NPDENTRIES]
      omega

theorem Deallocs.moves {oldsz : Nat} (h : Deallocs oldsz u a w) (low : oldsz ≤ KERNBASE) :
    Moves leak stray u w := by
  induction h with
  | stop _ => exact .refl
  | jump _ _ _ ih => exact ih
  | pass _ _ _ _ ih => exact ih
  | free below there freed _ ih => exact .head (.unmap (user_page (by omega)) there freed) ih

theorem deallocuvm_moves {oldsz newsz r : Nat} (low : oldsz ≤ KERNBASE)
    (done : deallocuvm u oldsz newsz = .ok (r, w)) : Moves leak stray u w := by
  rcases deallocuvm_cases low done with ⟨-, -, rfl⟩ | ⟨-, -, loop⟩
  · exact .refl
  · exact loop.moves low

theorem mappagesLoop_moves {n last : Nat} (aligned : a % PGSIZE = 0)
    (end_ : last % PGSIZE = 0) (le : a ≤ last) (word : last < 2 ^ 32) (high : KERNBASE ≤ a)
    (done : mappagesLoop n u a last e = .ok (r, w)) : Moves leak stray u w := by
  induction n generalizing u a e with
  | zero => cases done
  | succ n ih =>
    unfold mappagesLoop at done
    split at done
    · cases done
      exact .refl
    · rename_i v walked
      have first : Moves leak stray u v := walkpgdir_moves (by omega) walked
      split at done
      · cases done
      · have entry : Move leak stray v { v with pgdir := v.pgdir.set (a / PGSIZE) (some e) } := by
          refine .kernel _ _ ?_
          simp only [UPAGES, PGSIZE, KERNBASE] at high ⊢
          omega
        split at done
        · cases done
          exact first.tail entry
        · have page : (a + PGSIZE) % 2 ^ 32 = a + PGSIZE := by
            simp only [PGSIZE] at aligned end_ ⊢
            omega
          rw [page] at done
          refine (first.tail entry).trans (ih (page_next aligned) ?_ (by omega) done)
          simp only [PGSIZE] at aligned end_ ⊢
          omega

theorem mappages_kernel {va size : Nat} (pos : 0 < size)
    (word : va + size ≤ 2 ^ 32) (high : KERNBASE ≤ va)
    (done : mappages u va size e = .ok (r, w)) : Moves leak stray u w := by
  have last : (va + size - 1) % 2 ^ 32 = va + size - 1 := by omega
  unfold mappages at done
  rw [last] at done
  unfold PGROUNDDOWN at done
  refine mappagesLoop_moves ?_ ?_ ?_ ?_ ?_ done
  all_goals simp only [PGSIZE, KERNBASE] at high ⊢; omega

theorem setupkvmLoop_moves {ks : List Kmap} {ok : Bool}
    (kernel : ∀ k ∈ ks, KERNBASE ≤ k.virt ∧ 0 < k.size ∧ k.virt + k.size ≤ 2 ^ 32)
    (done : setupkvmLoop ks u = .ok (ok, w)) : Moves leak stray u w := by
  induction ks generalizing u with
  | nil =>
    cases done
    exact .refl
  | cons k ks ih =>
    obtain ⟨⟨r, v⟩, mapped, rest⟩ := bind_ok.mp done
    obtain ⟨high, pos, word⟩ := kernel k List.mem_cons_self
    have first : Moves leak stray u v := mappages_kernel pos word high mapped
    dsimp only at rest
    split at rest
    · cases rest
      exact first
    · exact first.trans (ih (fun k hk => kernel k (List.mem_cons_of_mem _ hk)) rest)

theorem PgDir.has_walked (walked : walkpgdir u a true = some w) :
    w.pgdir.has = update u.pgdir.has (PDX a) true ∧
      u.kmem.freelist.length = w.kmem.freelist.length + u.pgdir.tableNeed a := by
  unfold walkpgdir at walked
  split at walked
  · rename_i page table
    cases walked
    have there : u.pgdir.has (PDX a) = true := by simp [PgDir.has, table]
    exact ⟨by rw [← there, update_eq_self], by simp [PgDir.tableNeed, table]⟩
  · rename_i absent
    rw [if_pos rfl] at walked
    split at walked
    · cases walked
    · rename_i page k taken
      cases walked
      refine ⟨funext fun i => ?_,
        by simp [PgDir.tableNeed, absent, (kalloc_some taken).1, Kmem.memset]⟩
      by_cases e : i = PDX a
      · subst e
        simp [PgDir.has, PgDir.addTable]
      · simp [PgDir.has, PgDir.addTable, e]

/-- What becomes of a page that has left the free list and is to be mapped: it is, or
no page is left for its page table. -/
inductive Maps (u : Uvm) (k : Kmem) (a : Nat) (w : Uvm) : Int → Prop where
  | done : (∀ leak stray, Moves leak stray u w) →
      w.pgdir.has = update u.pgdir.has (PDX a) true →
      k.freelist.length = w.kmem.freelist.length + u.pgdir.tableNeed a →
      w.kmem.freelist ⊆ k.freelist → (w.pgdir.entry (a / PGSIZE)).isSome →
      (∀ v, v ≠ a / PGSIZE → w.pgdir.entry v = u.pgdir.entry v) → Maps u k a w 0
  | none : w = ⟨u.pgdir, k⟩ → k.freelist = [] → u.pgdir.tab (PDX a) = .none → Maps u k a w (-1)

theorem mappages_maps (aligned : a % PGSIZE = 0) (low : a < KERNBASE)
    (hands : u.kmem.Hands k e.pa) (done : mappages ⟨u.pgdir, k⟩ a PGSIZE e = .ok (r, w)) :
    Maps u k a w r := by
  have word : a + PGSIZE ≤ 2 ^ 32 := by
    simp only [PGSIZE, KERNBASE] at low ⊢
    omega
  rw [mappages_unfold _ e aligned word] at done
  split at done
  · cases done
    obtain ⟨absent, empty⟩ := walkpgdir_none ‹_›
    exact .none rfl empty absent
  · rename_i v walked
    obtain ⟨entry, table, -, takes⟩ := walkpgdir_some walked
    obtain ⟨has, free⟩ := PgDir.has_walked walked
    split at done
    · cases done
    · rename_i vacant
      cases done
      have none : v.pgdir.entry (a / PGSIZE) = none := by
        rw [v.pgdir.entry_of_table table]
        simpa using vacant
      refine .done (fun leak stray => ?_) has free takes.suffix.subset ?_ fun x ne => ?_
      · -- the page table, if one is taken, leaves the list after the page itself
        unfold walkpgdir at walked
        split at walked
        · cases walked
          exact .single (.map (user_page low) table none hands)
        · rename_i absent
          rw [if_pos rfl] at walked
          split at walked
          · cases walked
          · rename_i page k' taken
            cases walked
            obtain ⟨m, tabled, mapped⟩ := hands.swap (kalloc_hands taken fun _ => 0)
            refine .head (.table ?_ absent tabled)
              (.single (.map (user_page low) table none mapped))
            unfold PDX
            simp only [PGSIZE, NPTENTRIES, NPDENTRIES, KERNBASE] at low ⊢
            omega
      · rw [v.pgdir.entry_set (some e) table, update_self]
        rfl
      · rw [v.pgdir.entry_set (some e) table, update_of_ne ne, entry]

end Functions

section Free
variable {u : Uvm} {k k' : Kmem} {x : Nat}

/-- What a call that only frees leaves: the pages are on the list, and no other page
is written. -/
structure Kmem.Gets (k k' : Kmem) (pages : Nat → Nat) : Prop where
  count : ∀ x, k'.freelist.count x = k.freelist.count x + pages x
  mem : ∀ x, pages x = 0 → k'.mem x = k.mem x
  kend : k'.kend = k.kend
  kdata : k'.kdata = k.kdata

theorem kfree_gets (freed : k.kfree pa = .ok k') :
    k.Gets k' fun x => if pa = x then 1 else 0 := by
  refine ⟨fun x => ?_, fun x none => ?_, (kfree_kend freed).1, (kfree_kend freed).2.1⟩
  · rw [kfree_count freed]
    simp only [@eq_comm _ pa x]
  · rw [(kfree_ok freed).2]
    refine update_of_ne (fun same => ?_) _ _
    rw [if_pos same.symm] at none
    cases none

theorem Kmem.Gets.trans {k'' : Kmem} {pages more : Nat → Nat} (h : k.Gets k' pages)
    (h' : k'.Gets k'' more) : k.Gets k'' fun x => pages x + more x where
  count x := by rw [h'.count, h.count]; omega
  mem x none := by rw [h'.mem x (by omega), h.mem x (by omega)]
  kend := h'.kend.trans h.kend
  kdata := h'.kdata.trans h.kdata

theorem Kmem.Gets.congr {pages pages' : Nat → Nat} (h : k.Gets k' pages)
    (same : ∀ x, pages x = pages' x) : k.Gets k' pages' := by
  rw [← funext same]
  exact h

theorem freeTables_gets (tab : Nat → Option Nat) {f : Kmem → Nat → Except Panic Kmem} (n : Nat)
    (step : ∀ k i k', f k i = .ok k' →
      tab i = none ∧ k' = k ∨ ∃ page, tab i = some page ∧ k.kfree page = .ok k')
    (done : (List.range n).foldlM f k = .ok k') :
    k.Gets k' fun x => (fibre (fun i : Fin n => tab i) x).card := by
  induction n generalizing k' with
  | zero =>
    cases done
    exact ⟨fun x => by simp [fibre], fun _ _ => rfl, rfl, rfl⟩
  | succ n ih =>
    rw [List.range_succ, List.foldlM_append] at done
    obtain ⟨m, first, rest⟩ := bind_ok.mp done
    have last : f m n = .ok k' := by
      obtain ⟨q, one, eq⟩ := bind_ok.mp rest
      cases eq
      exact one
    have before := ih first
    rcases step m n k' last with ⟨absent, rfl⟩ | ⟨page, table, freed⟩
    · refine before.congr fun x => ?_
      simp [Lib.card_fibre_succ, absent]
    · refine (before.trans (kfree_gets freed)).congr fun x => ?_
      simp [Lib.card_fibre_succ, table]

theorem PgDir.count_cleared {d : PgDir} (empty : ∀ v, v < UPAGES → d.entry v = none) (x : Nat) :
    d.count x =
      (fibre (fun i : Fin NPDENTRIES => d.tab i) x).card + if d.page = x then 1 else 0 := by
  have none : (fibre (fun v : Fin UPAGES => d.owner v) x).card = 0 :=
    Lib.card_fibre_none (fun v => by simp [PgDir.owner, empty v.1 v.2]) x
  unfold PgDir.count
  omega

/-- What freevm leaves: every page of the directory is free, and a page that was neither
its own nor free keeps its bytes. -/
structure Frees (u : Uvm) (k : Kmem) : Prop where
  count : ∀ x, k.freelist.count x = u.count x
  mem : ∀ x, u.count x = 0 → k.mem x = u.kmem.mem x
  fixed : k.kend = u.kmem.kend ∧ k.kdata = u.kmem.kdata

theorem freevm_frees (done : freevm u = .ok k) : Frees u k := by
  obtain ⟨⟨r, w⟩, dealloc, rest⟩ := bind_ok.mp done
  have moves : Moves False False u w := deallocuvm_moves (Nat.le_refl _) dealloc
  have empty : ∀ v, v < UPAGES → w.pgdir.entry v = none := by
    intro v user
    rcases deallocuvm_cases (Nat.le_refl _) dealloc with ⟨le, -⟩ | ⟨-, -, loop⟩
    · exact absurd le (by decide)
    · refine loop.empty (PGROUNDUP_mod 0) (.inr (by decide)) ?_ ?_
      · exact Nat.zero_le _
      · simp only [UPAGES, KERNBASE, PGSIZE] at user ⊢
        omega
  obtain ⟨m, tables, last⟩ := bind_ok.mp rest
  have gets :=
    (freeTables_gets w.pgdir.tab NPDENTRIES (fun k i k' one => ?_) tables).trans (kfree_gets last)
  · have after := gets.congr fun x => (PgDir.count_cleared empty x).symm
    have count : ∀ x, k.freelist.count x = u.count x := by
      intro x
      have := moves.count_eq x
      have := after.count x
      unfold Uvm.count at *
      omega
    refine ⟨count, fun x absent => ?_, after.kend.trans moves.fixed.1,
      after.kdata.trans moves.fixed.2⟩
    rw [after.mem x ?_, moves.mem_eq absent]
    have := after.count x
    have := count x
    omega
  · split at one
    · cases one
      exact .inl ⟨‹_›, rfl⟩
    · exact .inr ⟨_, ‹_›, one⟩

theorem Frees.length_le (h : Frees u k) : u.kmem.freelist.length ≤ k.freelist.length := by
  refine (List.subperm_ext_iff.mpr fun x _ => ?_).length_le
  rw [h.count x]
  exact Nat.le_add_left _ _

end Free

end MmapXv6
