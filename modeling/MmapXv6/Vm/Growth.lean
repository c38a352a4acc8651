import MmapXv6.Vm.Range

/-! How much memory a growth takes. allocuvm takes a page for each page of the range and
one for each page table that is missing. With that much on the free list it succeeds and
every page of the range is there; with one page less, the last page of the range may
stay out although allocuvm reports success. -/
namespace MmapXv6

open Lib (bind_ok)
open Function

def PgDir.tableNeed (d : PgDir) (va : Nat) : Nat := if (d.tab (PDX va)).isSome then 0 else 1

/-- The pages that allocuvm takes for the range from a, a multiple of PGSIZE, to newsz,
when no page table above the one of a exists. -/
def PgDir.need (d : PgDir) (a newsz : Nat) : Nat :=
  if a < newsz then (newsz - a + (PGSIZE - 1)) / PGSIZE + (PDX (newsz - 1) - PDX a) + d.tableNeed a
  else 0

/-- Every free page and every page of the user's half is one that kfree takes back. -/
structure Uvm.Owned (u : Uvm) : Prop where
  zero : 0 < u.kmem.kend
  free : ∀ f ∈ u.kmem.freelist, u.kmem.kend ≤ f ∧ f < PHYSTOP / PGSIZE
  user : ∀ v, v < UPAGES → ∀ e, u.pgdir.entry v = some e →
    u.kmem.kend ≤ e.pa ∧ e.pa < PHYSTOP / PGSIZE

section Room
variable {u u' : Uvm} {a oldsz newsz r : Nat}

theorem kalloc_kend {k k' : Kmem} {pa : Nat} (h : k.kalloc = some (pa, k')) : k'.kend = k.kend := by
  unfold Kmem.kalloc at h
  split at h
  · cases h
  · cases h
    rfl

theorem walkpgdir_room (room : u.pgdir.tableNeed a ≤ u.kmem.freelist.length) :
    ∃ w, walkpgdir u a true = some w ∧ Walked u w a ∧ w.kmem.kend = u.kmem.kend ∧
      u.kmem.freelist.length = w.kmem.freelist.length + u.pgdir.tableNeed a := by
  unfold PgDir.tableNeed at room ⊢
  cases walked : walkpgdir u a true with
  | none =>
    obtain ⟨absent, empty⟩ := walkpgdir_none walked
    simp [absent, empty] at room
  | some w =>
    refine ⟨w, rfl, walkpgdir_some walked, ?_⟩
    unfold walkpgdir at walked
    split at walked
    · rename_i page table
      cases walked
      simp [table]
    · rename_i absent
      rw [if_pos rfl] at walked
      split at walked
      · cases walked
      · rename_i pgtab k taken
        cases walked
        simp [absent, (kalloc_some taken).1, Kmem.memset, kalloc_kend taken]

theorem need_step (d d' : PgDir) (aligned : a % PGSIZE = 0) (below : a < newsz)
    (table : (d'.tab (PDX a)).isSome) :
    d'.need (a + PGSIZE) newsz + 1 + d.tableNeed a ≤ d.need a newsz := by
  have later : d'.tableNeed (a + PGSIZE) ≤ PDX (a + PGSIZE) - PDX a := by
    unfold PgDir.tableNeed
    split
    · omega
    · rename_i absent
      have ne : PDX (a + PGSIZE) ≠ PDX a := by
        intro same
        rw [same] at absent
        exact absent table
      unfold PDX at ne ⊢
      simp only [PGSIZE, NPTENTRIES] at ne ⊢
      omega
  unfold PgDir.need
  rw [if_pos below]
  split
  · rename_i more
    unfold PDX at later ⊢
    simp only [PGSIZE, NPTENTRIES] at aligned later more ⊢
    omega
  · simp only [PGSIZE] at aligned ⊢
    omega

structure Covers (u u' : Uvm) (a newsz : Nat) : Prop where
  range : ∀ v, a ≤ v * PGSIZE → v * PGSIZE < newsz → (u'.pgdir.entry v).isSome
  outside : ∀ v, v * PGSIZE < a ∨ newsz ≤ v * PGSIZE → u'.pgdir.entry v = u.pgdir.entry v
  tables : ∀ i, (u.pgdir.tab i).isSome → (u'.pgdir.tab i).isSome
  free : u.kmem.freelist.length ≤ u'.kmem.freelist.length + u.pgdir.need a newsz
  owned : u.Owned → u'.Owned

theorem Covers.stop (above : newsz ≤ a) : Covers u u a newsz :=
  ⟨fun v low high => absurd high (by omega), fun _ _ => rfl, fun _ h => h, by omega, id⟩

structure OnePage (u w : Uvm) (a newsz mem : Nat) : Prop where
  entry : w.pgdir.entry = update u.pgdir.entry (a / PGSIZE) (some (userPte mem))
  tables : ∀ i, (u.pgdir.tab i).isSome → (w.pgdir.tab i).isSome
  free : u.kmem.freelist.length + w.pgdir.need (a + PGSIZE) newsz ≤
    w.kmem.freelist.length + u.pgdir.need a newsz
  owned : u.Owned → w.Owned

theorem Uvm.Owned.take {w : Uvm} {mem : Nat} (owned : u.Owned) (taken : mem ∈ u.kmem.freelist)
    (subset : w.kmem.freelist ⊆ u.kmem.freelist) (kend : w.kmem.kend = u.kmem.kend)
    (entry : w.pgdir.entry = update u.pgdir.entry (a / PGSIZE) (some (userPte mem))) :
    w.Owned := by
  refine ⟨kend ▸ owned.zero, fun f free => ?_, fun v user e there => ?_⟩
  · rw [kend]
    exact owned.free f (subset free)
  · rw [kend]
    rw [entry, update_apply] at there
    split at there
    · cases there
      exact owned.free mem taken
    · exact owned.user v user e there

theorem allocuvmLoop_pass (low : newsz < KERNBASE) (aligned : a % PGSIZE = 0) (below : a < newsz)
    (room : u.pgdir.need a newsz ≤ u.kmem.freelist.length) :
    ∃ w mem, OnePage u w a newsz mem ∧ ∀ n, allocuvmLoop (n + 1) u a oldsz newsz =
      if (u.pgdir.entry (a / PGSIZE)).isSome then .error .remap
      else allocuvmLoop n w (a + PGSIZE) oldsz newsz := by
  have page := word_next below (Nat.le_of_lt low)
  have high : a + PGSIZE ≤ 2 ^ 32 := by
    omega
  have one : u.pgdir.tableNeed a + 1 ≤ u.pgdir.need a newsz := by
    unfold PgDir.need
    rw [if_pos below]
    simp only [PGSIZE]
    omega
  cases taken : u.kmem.kalloc with
  | none =>
    rw [kalloc_none taken, List.length_nil] at room
    omega
  | some r =>
    obtain ⟨mem, k⟩ := r
    obtain ⟨list, -⟩ := kalloc_some taken
    rw [list, List.length_cons] at room
    obtain ⟨w, found, walked, kend, count⟩ := walkpgdir_room
      (u := { u with kmem := k.memset mem 0 })
      (a := a) (show _ ≤ k.freelist.length by dsimp only; omega)
    have same : w.pgdir.entry = u.pgdir.entry := walked.entry
    have entry : (w.pgdir.set (a / PGSIZE) (some (userPte mem))).entry =
        update u.pgdir.entry (a / PGSIZE) (some (userPte mem)) := by
      rw [← same]
      exact w.pgdir.entry_set (some (userPte mem)) walked.table
    refine ⟨{ w with pgdir := w.pgdir.set (a / PGSIZE) (some (userPte mem)) }, mem,
      ⟨entry, walked.tables, ?_, fun owned => ?_⟩, ?_⟩
    · have step :=
        need_step u.pgdir (w.pgdir.set (a / PGSIZE) (some (userPte mem))) aligned below walked.table
      change k.freelist.length = w.kmem.freelist.length + u.pgdir.tableNeed a at count
      rw [list, List.length_cons]
      dsimp only at step ⊢
      omega
    · apply owned.take (by rw [list]; exact List.mem_cons_self) _ _ entry
      · rw [list]
        exact List.subset_cons_of_subset mem walked.takes.suffix.subset
      · exact kend.trans (show k.kend = u.kmem.kend from kalloc_kend taken)
    · intro n
      rw [← same, w.pgdir.entry_of_table walked.table, allocuvmLoop, if_pos below, taken]
      dsimp only
      rw [mappages_unfold _ _ aligned high, found, page]
      dsimp only
      split
      · rfl
      · rfl

theorem Covers.pass {w : Uvm} {mem : Nat} (aligned : a % PGSIZE = 0) (below : a < newsz)
    (page : OnePage u w a newsz mem) (rest : Covers w u' (a + PGSIZE) newsz) :
    Covers u u' a newsz := by
  constructor
  · intro v low high
    by_cases first : v = a / PGSIZE
    · subst first
      rw [rest.outside _ (.inl (by simp only [PGSIZE] at aligned ⊢; omega)),
        page.entry, update_self]
      rfl
    · exact rest.range v (by simp only [PGSIZE] at aligned low first ⊢; omega) high
  · intro v out
    rw [rest.outside v (by omega), page.entry, update_of_ne]
    simp only [PGSIZE] at aligned out ⊢
    omega
  · intro i there
    exact rest.tables i (page.tables i there)
  · have free := rest.free
    have more := page.free
    omega
  · exact fun owned => rest.owned (page.owned owned)

theorem allocuvmLoop_room {n : Nat} (low : newsz < KERNBASE) (aligned : a % PGSIZE = 0)
    (room : u.pgdir.need a newsz ≤ u.kmem.freelist.length)
    (done : allocuvmLoop n u a oldsz newsz = .ok (r, u')) : r = newsz ∧ Covers u u' a newsz := by
  induction n generalizing u a with
  | zero => cases done
  | succ n ih =>
    by_cases below : a < newsz
    · obtain ⟨w, mem, page, pass⟩ := allocuvmLoop_pass low aligned below room
      rw [pass n] at done
      split at done
      · cases done
      · have free := page.free
        obtain ⟨rfl, rest⟩ := ih (page_next aligned) (by omega) done
        exact ⟨rfl, .pass aligned below page rest⟩
    · rw [allocuvmLoop, if_neg below] at done
      cases done
      exact ⟨rfl, .stop (by omega)⟩

theorem allocuvmLoop_returns {n : Nat} (low : newsz < KERNBASE) (aligned : a % PGSIZE = 0)
    (room : u.pgdir.need a newsz ≤ u.kmem.freelist.length)
    (absent : ∀ v, a ≤ v * PGSIZE → v * PGSIZE < newsz → u.pgdir.entry v = none)
    (fuel : newsz ≤ a + n * PGSIZE) :
    ∃ u', allocuvmLoop (n + 1) u a oldsz newsz = .ok (newsz, u') := by
  induction n generalizing u a with
  | zero => exact ⟨u, by rw [allocuvmLoop, if_neg (by omega)]⟩
  | succ n ih =>
    by_cases below : a < newsz
    · obtain ⟨w, mem, page, pass⟩ := allocuvmLoop_pass low aligned below room
      have here : a / PGSIZE * PGSIZE = a := by
        simp only [PGSIZE] at aligned ⊢
        omega
      rw [pass (n + 1), absent (a / PGSIZE) (by omega) (by omega)]
      have free := page.free
      apply ih (page_next aligned) (by omega) ?_ (by rw [Nat.succ_mul] at fuel; omega)
      intro v low high
      rw [page.entry, update_of_ne]
      · exact absent v (by omega) high
      · simp only [PGSIZE] at low ⊢
        omega
    · exact ⟨u, by rw [allocuvmLoop, if_neg below]⟩

theorem Uvm.Owned.give {e : Pte} {k : Kmem} (owned : u.Owned) (user : a / PGSIZE < UPAGES)
    (there : u.pgdir.entry (a / PGSIZE) = some e) (freed : u.kmem.kfree e.pa = .ok k) :
    Uvm.Owned ⟨u.pgdir.set (a / PGSIZE) none, k⟩ := by
  unfold Kmem.kfree at freed
  split at freed
  · cases freed
  · cases freed
    refine ⟨owned.zero, fun f free => ?_, fun v page e' found => ?_⟩
    · rcases List.mem_cons.mp free with rfl | old
      · exact owned.user _ user e there
      · exact owned.free f old
    · rw [u.pgdir.entry_set none (PgDir.table_of_entry there), update_apply] at found
      split at found
      · cases found
      · exact owned.user v page e' found

end Room

end MmapXv6
