import MmapXv6.Vm.Dealloc

/-! The loop of allocuvm page by page. A page takes one page of the free list for its data
and one more where it is the first of a missing page table. The loop fills a prefix of
its range; behind it the free list is empty, or holds one page that is taken for the
data of a page whose table cannot be had. -/
namespace MmapXv6

open Lib (bind_ok ok_bind)
open Function

variable {mem : Nat} {rest : List Nat}

/-- Page v of a growth from page p is the first one of a page table that is missing. -/
def NeedsTable (tab : Nat → Option Nat) (p v : Nat) : Prop :=
  tab (v / NPTENTRIES) = none ∧ (v = p ∨ v % NPTENTRIES = 0)

instance (tab : Nat → Option Nat) (p v : Nat) : Decidable (NeedsTable tab p v) :=
  inferInstanceAs (Decidable (_ ∧ _))

/-- The pages that a growth by m pages from page p takes, with their tables. -/
def growthNeed (tab : Nat → Option Nat) (p : Nat) : Nat → Nat
  | 0 => 0
  | m + 1 => growthNeed tab p m + 1 + if NeedsTable tab p (p + m) then 1 else 0

structure FilledTo (u u' : Uvm) (p m : Nat) : Prop where
  page : ∀ v, p ≤ v → v < p + m → ∃ pa, pa ∈ u.kmem.freelist ∧
    u'.pgdir.entry v = some (userPte pa) ∧ u'.kmem.mem pa = fun _ => 0
  outside : ∀ v, v < p ∨ p + m ≤ v → u'.pgdir.entry v = u.pgdir.entry v
  tab : ∀ i, (u'.pgdir.tab i).isSome ↔ (u.pgdir.tab i).isSome ∨ ∃ v, p ≤ v ∧ v < p + m ∧
    v / NPTENTRIES = i
  freelist : u'.kmem.freelist = u.kmem.freelist.drop (growthNeed u.pgdir.tab p m)
  kend : u'.kmem.kend = u.kmem.kend
  mem : ∀ pa, pa ∉ u.kmem.freelist → u'.kmem.mem pa = u.kmem.mem pa

section Page
variable {u u' : Uvm} {n p m oldsz newsz : Nat} {e : Pte}

theorem mappages_vacant {d : PgDir} {k : Kmem} (low : p * PGSIZE + PGSIZE ≤ 2 ^ 32)
    (vacant : d.entry p = none) :
    mappages ⟨d, k⟩ (p * PGSIZE) PGSIZE e =
      if (d.tab (p / NPTENTRIES)).isSome then .ok (0, ⟨d.set p (some e), k⟩)
      else match k.kalloc with
        | none => .ok (-1, ⟨d, k⟩)
        | some (pgtab, k) =>
          .ok (0, ⟨(d.addTable (p / NPTENTRIES) pgtab).set p (some e), k.memset pgtab 0⟩) := by
  have page : p * PGSIZE / PGSIZE = p := Nat.mul_div_cancel p (by decide)
  have table : PDX (p * PGSIZE) = p / NPTENTRIES := by
    unfold PDX
    rw [page]
  rw [mappages_unfold _ e (Nat.mul_mod_left p PGSIZE) low, walkpgdir, table, page]
  cases there : d.tab (p / NPTENTRIES) with
  | some pgtab =>
    have free : d.pte p = none := by
      rw [← d.entry_of_table (by rw [there]; rfl), vacant]
    simp [free]
  | none =>
    cases k.kalloc with
    | none => rfl
    | some taken => simp [PgDir.addTable]

def Uvm.addPage (u : Uvm) (p mem : Nat) (rest : List Nat) : Uvm :=
  ⟨u.pgdir.set p (some (userPte mem)), { u.kmem.memset mem 0 with freelist := rest }⟩

def Uvm.addPageTable (u : Uvm) (p mem pgtab : Nat) (rest : List Nat) : Uvm :=
  ⟨(u.pgdir.addTable (p / NPTENTRIES) pgtab).set p (some (userPte mem)),
    { (u.kmem.memset mem 0).memset pgtab 0 with freelist := rest }⟩

def Uvm.losePage (u : Uvm) (mem : Nat) : Uvm :=
  { u with kmem := { u.kmem.memset mem 0 with freelist := [] } }

theorem growing_word (low : newsz < KERNBASE) (below : p < endPage newsz) :
    p * PGSIZE + PGSIZE ≤ 2 ^ 32 ∧ (p * PGSIZE + PGSIZE) % 2 ^ 32 = (p + 1) * PGSIZE := by
  have less := below_endPage.mpr below
  refine ⟨?_, by rw [word_next less (Nat.le_of_lt low), Nat.succ_mul]⟩
  simp only [PGSIZE, KERNBASE] at low less ⊢
  omega

theorem allocuvmLoop_end (done : endPage newsz ≤ p) :
    allocuvmLoop (n + 1) u (p * PGSIZE) oldsz newsz = .ok (newsz, u) := by
  rw [allocuvmLoop, if_neg]
  rw [below_endPage]
  omega

theorem allocuvmLoop_none (below : p < endPage newsz) (empty : u.kmem.freelist = []) :
    allocuvmLoop (n + 1) u (p * PGSIZE) oldsz newsz =
      deallocuvm u newsz oldsz >>= fun r => .ok (0, r.2) := by
  rw [allocuvmLoop, if_pos (below_endPage.mpr below), Kmem.kalloc, empty]

section Pass
variable (low : newsz < KERNBASE) (below : p < endPage newsz) (vacant : u.pgdir.entry p = none)
include low below vacant

theorem allocuvmLoop_page (there : (u.pgdir.tab (p / NPTENTRIES)).isSome)
    (list : u.kmem.freelist = mem :: rest) :
    allocuvmLoop (n + 1) u (p * PGSIZE) oldsz newsz =
      allocuvmLoop n (u.addPage p mem rest) ((p + 1) * PGSIZE) oldsz newsz := by
  obtain ⟨word, next⟩ := growing_word low below
  rw [allocuvmLoop, if_pos (below_endPage.mpr below), Kmem.kalloc, list]
  dsimp only
  rw [mappages_vacant word vacant, if_pos there, ok_bind, next]
  rfl

theorem allocuvmLoop_table {pgtab : Nat}
    (absent : u.pgdir.tab (p / NPTENTRIES) = none)
    (list : u.kmem.freelist = mem :: pgtab :: rest) :
    allocuvmLoop (n + 1) u (p * PGSIZE) oldsz newsz =
      allocuvmLoop n (u.addPageTable p mem pgtab rest) ((p + 1) * PGSIZE) oldsz newsz := by
  obtain ⟨word, next⟩ := growing_word low below
  rw [allocuvmLoop, if_pos (below_endPage.mpr below), Kmem.kalloc, list]
  dsimp only
  rw [mappages_vacant word vacant, if_neg (by rw [absent]; decide)]
  dsimp only [Kmem.kalloc, Kmem.memset]
  rw [ok_bind, next]
  rfl

theorem allocuvmLoop_lose (absent : u.pgdir.tab (p / NPTENTRIES) = none)
    (list : u.kmem.freelist = [mem]) :
    allocuvmLoop (n + 1) u (p * PGSIZE) oldsz newsz =
      allocuvmLoop n (u.losePage mem) ((p + 1) * PGSIZE) oldsz newsz := by
  obtain ⟨word, next⟩ := growing_word low below
  rw [allocuvmLoop, if_pos (below_endPage.mpr below), Kmem.kalloc, list]
  dsimp only
  rw [mappages_vacant word vacant, if_neg (by rw [absent]; decide)]
  dsimp only [Kmem.kalloc, Kmem.memset]
  rw [ok_bind, next]
  rfl

end Pass

end Page

section Fill
variable {u w w' : Uvm} {n p m oldsz newsz : Nat}

theorem FilledTo.refl (u : Uvm) (p : Nat) : FilledTo u u p 0 where
  page := fun v low high => by omega
  outside := fun _ _ => rfl
  tab := fun i => ⟨.inl, fun h => h.resolve_right fun ⟨v, low, high, _⟩ => by omega⟩
  freelist := rfl
  kend := rfl
  mem := fun _ _ => rfl

theorem FilledTo.subset (h : FilledTo u w p m) : w.kmem.freelist ⊆ u.kmem.freelist := by
  rw [h.freelist]
  exact List.drop_subset _ _

/-- The table of the next page is missing exactly when it was so before and no page
before it made it. -/
theorem FilledTo.needsTable (h : FilledTo u w p m) :
    w.pgdir.tab ((p + m) / NPTENTRIES) = none ↔ NeedsTable u.pgdir.tab p (p + m) := by
  have made : (∃ v, p ≤ v ∧ v < p + m ∧ v / NPTENTRIES = (p + m) / NPTENTRIES) ↔
      ¬ (p + m = p ∨ (p + m) % NPTENTRIES = 0) := by
    constructor
    · rintro ⟨v, low, high, same⟩
      simp only [NPTENTRIES] at same ⊢
      omega
    · intro inside
      refine ⟨p + m - 1, ?_⟩
      simp only [NPTENTRIES] at inside ⊢
      omega
  have there := h.tab ((p + m) / NPTENTRIES)
  rw [made] at there
  rw [← Option.not_isSome_iff_eq_none, there, NeedsTable, ← Option.not_isSome_iff_eq_none]
  tauto

theorem FilledTo.extend (h : FilledTo u w p m) (taken : mem ∈ w.kmem.freelist)
    (entry : w'.pgdir.entry = update w.pgdir.entry (p + m) (some (userPte mem)))
    (tab : ∀ i, (w'.pgdir.tab i).isSome ↔ (w.pgdir.tab i).isSome ∨ i = (p + m) / NPTENTRIES)
    (list : w'.kmem.freelist =
      w.kmem.freelist.drop (1 + if NeedsTable u.pgdir.tab p (p + m) then 1 else 0))
    (kend : w'.kmem.kend = w.kmem.kend) (zero : w'.kmem.mem mem = fun _ => 0)
    (zeros : ∀ pa, w.kmem.mem pa = (fun _ => 0) → w'.kmem.mem pa = fun _ => 0)
    (others : ∀ pa, pa ∉ w.kmem.freelist → w'.kmem.mem pa = w.kmem.mem pa) :
      FilledTo u w' p (m + 1) where
  page v low high := by
    rw [entry]
    by_cases last : v = p + m
    · subst last
      exact ⟨mem, h.subset taken, update_self .., zero⟩
    · obtain ⟨pa, free, there, filled⟩ := h.page v low (by omega)
      exact ⟨pa, free, by rw [update_of_ne last, there], zeros pa filled⟩
  outside v out := by
    rw [entry, update_of_ne (by omega)]
    exact h.outside v (by omega)
  tab i := by
    rw [tab, h.tab]
    constructor
    · rintro ((old | ⟨v, low, high, same⟩) | rfl)
      · exact .inl old
      · exact .inr ⟨v, low, by omega, same⟩
      · exact .inr ⟨p + m, by omega, by omega, rfl⟩
    · rintro (old | ⟨v, low, high, same⟩)
      · exact .inl (.inl old)
      · by_cases last : v = p + m
        · subst last
          exact .inr same.symm
        · exact .inl (.inr ⟨v, low, by omega, same⟩)
  freelist := by
    rw [list, h.freelist, List.drop_drop, growthNeed, Nat.add_assoc]
  kend := kend.trans h.kend
  mem pa out := by
    rw [others pa fun free => out (h.subset free), h.mem pa out]

theorem memset_zeros (k : Kmem) (mem : Nat) {pa : Nat} (zero : k.mem pa = fun _ => 0) :
    (k.memset mem 0).mem pa = fun _ => 0 := by
  unfold Kmem.memset
  by_cases same : pa = mem
  · simp [same]
  · simpa [same] using zero

theorem FilledTo.addPage (h : FilledTo u w p m)
    (there : (w.pgdir.tab ((p + m) / NPTENTRIES)).isSome) (list : w.kmem.freelist = mem :: rest) :
    FilledTo u (w.addPage (p + m) mem rest) p (m + 1) := by
  have needs : ¬ NeedsTable u.pgdir.tab p (p + m) := by
    rw [← h.needsTable]
    intro absent
    rw [absent] at there
    cases there
  have taken : mem ∈ w.kmem.freelist := by
    rw [list]
    exact List.mem_cons_self
  refine h.extend taken (w.pgdir.entry_set _ there) (fun i => ?_) ?_ rfl ?_ ?_ ?_
  · constructor
    · exact .inl
    · rintro (old | rfl)
      · exact old
      · exact there
  · rw [if_neg needs, list]
    rfl
  · exact update_self ..
  · exact fun pa zero => memset_zeros w.kmem mem zero
  · intro pa out
    rw [list, List.mem_cons, not_or] at out
    exact update_of_ne out.1 _ _

theorem FilledTo.addPageTable (h : FilledTo u w p m) {pgtab : Nat}
    (absent : w.pgdir.tab ((p + m) / NPTENTRIES) = none)
    (list : w.kmem.freelist = mem :: pgtab :: rest) :
    FilledTo u (w.addPageTable (p + m) mem pgtab rest) p (m + 1) := by
  have made :
      ((w.pgdir.addTable ((p + m) / NPTENTRIES) pgtab).tab ((p + m) / NPTENTRIES)).isSome := by
    simp [PgDir.addTable]
  have taken : mem ∈ w.kmem.freelist := by
    rw [list]
    exact List.mem_cons_self
  refine h.extend taken ?_ (fun i => ?_) ?_ rfl ?_ ?_ ?_
  · rw [← w.pgdir.entry_addTable pgtab absent]
    exact PgDir.entry_set _ _ made
  · change (update w.pgdir.tab ((p + m) / NPTENTRIES) (some pgtab) i).isSome ↔ _
    by_cases here : i = (p + m) / NPTENTRIES
    · simp [here]
    · simp [here]
  · rw [if_pos (h.needsTable.mp absent), list]
    rfl
  · exact memset_zeros _ pgtab (update_self ..)
  · exact fun pa zero => memset_zeros _ pgtab (memset_zeros w.kmem mem zero)
  · intro pa out
    rw [list, List.mem_cons, List.mem_cons, not_or, not_or] at out
    exact (update_of_ne out.2.1 _ _).trans (update_of_ne out.1 _ _)

theorem allocuvmLoop_fills (low : newsz < KERNBASE) (inside : p + m ≤ endPage newsz)
    (vacant : ∀ v, p ≤ v → v < p + m → u.pgdir.entry v = none)
    (room : growthNeed u.pgdir.tab p m ≤ u.kmem.freelist.length) :
    ∃ w, FilledTo u w p m ∧ ∀ oldsz n, allocuvmLoop (n + m) u (p * PGSIZE) oldsz newsz =
      allocuvmLoop n w ((p + m) * PGSIZE) oldsz newsz := by
  induction m with
  | zero => exact ⟨u, .refl u p, fun _ _ => rfl⟩
  | succ m ih =>
    rw [growthNeed] at room
    obtain ⟨w, filled, loop⟩ :=
      ih (by omega) (fun v from_ below => vacant v from_ (by omega)) (by omega)
    have empty : w.pgdir.entry (p + m) = none := by
      rw [filled.outside _ (.inr (Nat.le_refl _)), vacant _ (by omega) (by omega)]
    have length : w.kmem.freelist.length = u.kmem.freelist.length - growthNeed u.pgdir.tab p m := by
      rw [filled.freelist, List.length_drop]
    have first : ∀ oldsz n, allocuvmLoop (n + (m + 1)) u (p * PGSIZE) oldsz newsz =
        allocuvmLoop (n + 1) w ((p + m) * PGSIZE) oldsz newsz := by
      intro oldsz n
      rw [← loop oldsz (n + 1), Nat.add_right_comm, Nat.add_assoc]
    cases table : w.pgdir.tab ((p + m) / NPTENTRIES) with
    | some pgtab =>
      have there : (w.pgdir.tab ((p + m) / NPTENTRIES)).isSome := by
        rw [table]
        rfl
      obtain ⟨mem, rest, list⟩ : ∃ mem rest, w.kmem.freelist = mem :: rest :=
        List.exists_cons_of_length_pos (by omega)
      refine ⟨_, filled.addPage there list, fun oldsz n => ?_⟩
      rw [first, allocuvmLoop_page low (by omega) empty there list, Nat.add_assoc]
    | none =>
      rw [if_pos (filled.needsTable.mp table)] at room
      obtain ⟨mem, more, list⟩ : ∃ mem rest, w.kmem.freelist = mem :: rest :=
        List.exists_cons_of_length_pos (by omega)
      rw [list, List.length_cons] at length
      obtain ⟨pgtab, rest, rfl⟩ : ∃ pgtab rest, more = pgtab :: rest :=
        List.exists_cons_of_length_pos (by omega)
      refine ⟨_, filled.addPageTable table list, fun oldsz n => ?_⟩
      rw [first, allocuvmLoop_table low (by omega) empty table list, Nat.add_assoc]

theorem growth_prefix (tab : Nat → Option Nat) (p N free : Nat) :
    ∃ m, m ≤ N ∧ growthNeed tab p m ≤ free ∧ (m = N ∨ free < growthNeed tab p (m + 1)) := by
  induction N with
  | zero => exact ⟨0, Nat.le_refl 0, Nat.zero_le _, .inl rfl⟩
  | succ N ih =>
    obtain ⟨m, le, room, rfl | short⟩ := ih
    · by_cases more : growthNeed tab p (m + 1) ≤ free
      · exact ⟨m + 1, Nat.le_refl _, more, .inl rfl⟩
      · exact ⟨m, Nat.le_succ m, room, .inr (by omega)⟩
    · exact ⟨m, by omega, room, .inr short⟩

end Fill

structure Stuck (u x : Uvm) (p m : Nat) : Prop where
  page : ∀ v, p ≤ v → v < p + m → ∃ pa, pa ∈ u.kmem.freelist ∧ x.pgdir.entry v = some (userPte pa)
  outside : ∀ v, v < p ∨ p + m ≤ v → x.pgdir.entry v = u.pgdir.entry v
  table : 0 < m → (x.pgdir.tab (p / NPTENTRIES)).isSome
  kend : x.kmem.kend = u.kmem.kend
  mem : ∀ pa, pa ∉ u.kmem.freelist → x.kmem.mem pa = u.kmem.mem pa

/-- All entries are as before, and so are all pages but those that were free. -/
structure Restored (u u' : Uvm) : Prop where
  entry : u'.pgdir.entry = u.pgdir.entry
  mem : ∀ pa, pa ∉ u.kmem.freelist → u'.kmem.mem pa = u.kmem.mem pa

section Rollback
variable {u w x : Uvm} {p m oldsz newsz : Nat}

theorem FilledTo.stuck (h : FilledTo u w p m) : Stuck u w p m where
  page v low high := by
    obtain ⟨pa, free, there, -⟩ := h.page v low high
    exact ⟨pa, free, there⟩
  outside := h.outside
  table pos := (h.tab _).mpr (.inr ⟨p, Nat.le_refl p, by omega, rfl⟩)
  kend := h.kend
  mem := h.mem

theorem Stuck.losePage (h : Stuck u w p m) (free : mem ∈ u.kmem.freelist) :
    Stuck u (w.losePage mem) p m where
  page := h.page
  outside := h.outside
  table := h.table
  kend := h.kend
  mem pa out := by
    have ne : pa ≠ mem := by
      rintro rfl
      exact out free
    exact (update_of_ne ne _ _).trans (h.mem pa out)

/-- What deallocuvm finds in the range are the m pages and nothing else, so afterwards all
is as before. -/
theorem Stuck.rollback (h : Stuck u x (endPage oldsz) m) (less : oldsz < newsz)
    (low : newsz ≤ KERNBASE) (inside : endPage oldsz + m ≤ endPage newsz)
    (vacant : ∀ v, endPage oldsz ≤ v → v < endPage newsz → u.pgdir.entry v = none) :
    ((∀ pa, pa ∈ u.kmem.freelist → Freeable u.kmem pa) → ∃ r, deallocuvm x newsz oldsz = .ok r) ∧
    ∀ r, deallocuvm x newsz oldsz = .ok r → Restored u r.2 := by
  have mapped : ∀ v e, endPage oldsz ≤ v → v < endPage newsz → x.pgdir.entry v = some e →
      v < endPage oldsz + m ∧ e.pa ∈ u.kmem.freelist := by
    intro v e from_ to_ there
    by_cases inside : v < endPage oldsz + m
    · obtain ⟨pa, free, same⟩ := h.page v from_ inside
      rw [there] at same
      cases same
      exact ⟨inside, free⟩
    · rw [h.outside v (.inr (by omega)), vacant v from_ to_] at there
      cases there
  obtain ⟨clears, stops⟩ := deallocuvm_cleared (u := x) less low
  constructor
  · intro listed
    obtain ⟨y, done, -⟩ := clears fun v e from_ to_ _ there => by
      have ok := listed _ (mapped v e from_ to_ there).2
      unfold Freeable at ok ⊢
      rw [h.kend]
      exact ok
    exact ⟨_, done⟩
  · intro r done
    have all : AllFreeable x (endPage oldsz) (endPage newsz) := by
      by_contra failed
      cases done.symm.trans (stops failed)
    obtain ⟨y, result, cleared⟩ := clears all
    cases done.symm.trans result
    refine ⟨funext fun v => ?_, fun pa out => ?_⟩
    · by_cases range : endPage oldsz ≤ v ∧ v < endPage newsz
      · rw [vacant v range.1 range.2]
        by_cases skipped : Skipped x.pgdir.tab (endPage oldsz) v
        · rw [cleared.kept v (.inr (.inr skipped))]
          cases there : x.pgdir.entry v with
          | none => rfl
          | some e =>
            -- a first page that is mapped has its table, and then nothing is skipped
            have before := (mapped v e range.1 range.2 there).1
            exact absurd skipped (not_skipped (h.table (by omega)))
        · exact cleared.gone v range.1 range.2 skipped
      · rw [cleared.kept v (by omega)]
        exact h.outside v (by omega)
    · rw [cleared.mem pa, h.mem pa out]
      intro passed
      obtain ⟨v, range, there⟩ := List.mem_filterMap.mp passed
      obtain ⟨from_, to_⟩ := List.mem_range'_1.mp range
      unfold visitPage at there
      split at there
      · cases there
      · obtain ⟨e, here, rfl⟩ := Option.map_eq_some_iff.mp there
        exact out (mapped v e from_ (by omega) here).2

end Rollback

/-- Exactly one page is free when a growth by N pages from page p comes to its last page,
and that one needs a page table. -/
def StarvesLast (tab : Nat → Option Nat) (p N free : Nat) : Prop :=
  0 < N ∧ NeedsTable tab p (p + N - 1) ∧ free = growthNeed tab p (N - 1) + 1

instance (tab : Nat → Option Nat) (p N free : Nat) : Decidable (StarvesLast tab p N free) :=
  inferInstanceAs (Decidable (_ ∧ _ ∧ _))

theorem not_starvesLast {tab : Nat → Option Nat} {p N free : Nat}
    (enough : growthNeed tab p N ≤ free) : ¬ StarvesLast tab p N free := by
  rintro ⟨some, needs, one⟩
  cases N with
  | zero => omega
  | succ N =>
    have needs : NeedsTable tab p (p + N) := needs
    rw [growthNeed, if_pos needs] at enough
    rw [Nat.add_sub_cancel] at one
    omega

section Grow
variable {u : Uvm} {oldsz newsz : Nat}

theorem endPage_mono (le : oldsz ≤ newsz) : endPage oldsz ≤ endPage newsz := by
  exact Nat.div_le_div_right (by omega)

def growth (oldsz newsz : Nat) : Nat := endPage newsz - endPage oldsz

inductive GrowthEnds (u : Uvm) (oldsz newsz : Nat) : Except Panic (Nat × Uvm) → Prop where
  | full {w : Uvm} : growthNeed u.pgdir.tab (endPage oldsz) (growth oldsz newsz) ≤
    u.kmem.freelist.length →
      FilledTo u w (endPage oldsz) (growth oldsz newsz) → GrowthEnds u oldsz newsz (.ok (newsz, w))
  | starved {w : Uvm} {m mem : Nat} : growth oldsz newsz = m + 1 → mem ∈ u.kmem.freelist →
      StarvesLast u.pgdir.tab (endPage oldsz) (growth oldsz newsz) u.kmem.freelist.length →
      FilledTo u w (endPage oldsz) m → GrowthEnds u oldsz newsz (.ok (newsz, w.losePage mem))
  | failed {x : Uvm} {m : Nat} : m < growth oldsz newsz →
      u.kmem.freelist.length < growthNeed u.pgdir.tab (endPage oldsz) (growth oldsz newsz) →
      ¬ StarvesLast u.pgdir.tab (endPage oldsz) (growth oldsz newsz) u.kmem.freelist.length →
      Stuck u x (endPage oldsz) m →
      GrowthEnds u oldsz newsz (deallocuvm x newsz oldsz >>= fun r => .ok (0, r.2))

theorem growthNeed_mono (tab : Nat → Option Nat) (p : Nat) {m N : Nat} (le : m ≤ N) :
    growthNeed tab p m ≤ growthNeed tab p N := by
  induction le with
  | refl => exact Nat.le_refl _
  | step _ ih =>
    rw [growthNeed]
    omega

theorem allocuvm_prefix {j : Nat} (le : oldsz ≤ newsz) (low : newsz < KERNBASE)
    (inside : endPage oldsz + j ≤ endPage newsz)
    (vacant : ∀ v, endPage oldsz ≤ v → v < endPage oldsz + j → u.pgdir.entry v = none) :
    ∃ m n w, m ≤ j ∧ FilledTo u w (endPage oldsz) m ∧
      growthNeed u.pgdir.tab (endPage oldsz) m ≤ u.kmem.freelist.length ∧
      (m = j ∨ u.kmem.freelist.length < growthNeed u.pgdir.tab (endPage oldsz) (m + 1)) ∧
      allocuvm u oldsz newsz = allocuvmLoop (n + 2) w
      ((endPage oldsz + m) * PGSIZE) oldsz newsz := by
  have pages := endPage_le (Nat.le_of_lt low)
  obtain ⟨m, upto, room, last⟩ := growth_prefix u.pgdir.tab (endPage oldsz) j u.kmem.freelist.length
  obtain ⟨w, filled, loop⟩ := allocuvmLoop_fills low
    (Nat.le_trans (Nat.add_le_add_left upto _) inside)
    (fun v from_ below => vacant v from_ (by omega)) room
  obtain ⟨n, fuel⟩ : ∃ n, NPAGES + 1 = n + 2 + m := ⟨NPAGES - 1 - m, by
    simp only [UPAGES, NPAGES, NPDENTRIES, NPTENTRIES, PGSIZE, KERNBASE] at pages ⊢
    omega⟩
  refine ⟨m, n, w, upto, filled, room, last, ?_⟩
  unfold allocuvm
  rw [if_neg (by omega), if_neg (by omega), PGROUNDUP_endPage (by omega), fuel, loop]

theorem FilledTo.short {w : Uvm} {p m : Nat} (filled : FilledTo u w p m)
    (room : growthNeed u.pgdir.tab p m ≤ u.kmem.freelist.length)
    (short : u.kmem.freelist.length < growthNeed u.pgdir.tab p (m + 1)) :
    w.kmem.freelist = [] ∧ u.kmem.freelist.length = growthNeed u.pgdir.tab p m ∨
      ∃ mem, w.kmem.freelist = [mem] ∧ NeedsTable u.pgdir.tab p (p + m) ∧
        u.kmem.freelist.length = growthNeed u.pgdir.tab p m + 1 := by
  have length : w.kmem.freelist.length = u.kmem.freelist.length - growthNeed u.pgdir.tab p m := by
    rw [filled.freelist, List.length_drop]
  rw [growthNeed] at short
  cases list : w.kmem.freelist with
  | nil =>
    rw [list, List.length_nil] at length
    exact .inl ⟨rfl, by omega⟩
  | cons mem rest =>
    rw [list, List.length_cons] at length
    have needs : NeedsTable u.pgdir.tab p (p + m) := by
      by_contra no
      rw [if_neg no] at short
      omega
    rw [if_pos needs] at short
    obtain rfl : rest = [] := List.length_eq_zero_iff.mp (by omega)
    exact .inr ⟨mem, rfl, needs, by omega⟩

theorem allocuvm_ends (le : oldsz ≤ newsz) (low : newsz < KERNBASE)
    (vacant : ∀ v, endPage oldsz ≤ v → v < endPage newsz → u.pgdir.entry v = none) :
    GrowthEnds u oldsz newsz (allocuvm u oldsz newsz) := by
  have mono := endPage_mono le
  have range : endPage oldsz + growth oldsz newsz = endPage newsz := by
    unfold growth
    omega
  obtain ⟨m, n, w, upto, filled, room, last, run⟩ := allocuvm_prefix (u := u) le low
      (Nat.le_of_eq range)
    (fun v from_ below => vacant v from_ (by omega))
  rw [run]
  by_cases all : m = growth oldsz newsz
  · rw [allocuvmLoop_end (by omega)]
    subst all
    exact .full room filled
  · have below : endPage oldsz + m < endPage newsz := by omega
    have less : m < growth oldsz newsz := by omega
    have short := last.resolve_left all
    have need :=
      growthNeed_mono u.pgdir.tab (endPage oldsz) (show m + 1 ≤ growth oldsz newsz from less)
    rcases filled.short room short with ⟨none, length⟩ | ⟨mem, list, needs, length⟩
    · rw [allocuvmLoop_none below none]
      refine .failed less (by omega) ?_ filled.stuck
      rintro ⟨pos, -, one⟩
      have before :=
        growthNeed_mono u.pgdir.tab (endPage oldsz) (show m ≤ growth oldsz newsz - 1 by omega)
      omega
    · have absent := filled.needsTable.mpr needs
      have empty : w.pgdir.entry (endPage oldsz + m) = .none := by
        rw [filled.outside _ (.inr (Nat.le_refl _)), vacant _ (by omega) below]
      have free : mem ∈ u.kmem.freelist := filled.subset (by rw [list]; exact List.mem_cons_self)
      rw [allocuvmLoop_lose low below empty absent list]
      by_cases final : m + 1 = growth oldsz newsz
      · rw [allocuvmLoop_end (by omega)]
        refine .starved final.symm free ⟨by omega, ?_, ?_⟩ filled
        · rw [← final]
          exact needs
        · rw [← final, Nat.add_sub_cancel]
          exact length
      · rw [allocuvmLoop_none (by omega) rfl]
        refine .failed less (by omega) ?_ (filled.stuck.losePage free)
        rintro ⟨pos, -, one⟩
        have before := growthNeed_mono u.pgdir.tab (endPage oldsz)
          (show m + 1 ≤ growth oldsz newsz - 1 by omega)
        rw [growthNeed, if_pos needs] at before
        omega

structure AllocPromise (u u' : Uvm) (r oldsz newsz : Nat) : Prop where
  result : r = newsz ∨ r = 0
  full : r = newsz → ∀ v, PGROUNDUP oldsz ≤ v * PGSIZE → v * PGSIZE < newsz →
    ∃ pa, u'.pgdir.entry v = some (userPte pa) ∧ u'.kmem.mem pa = fun _ => 0
  none : r = 0 → ∀ v, (u'.pgdir.entry v).isSome ↔ (u.pgdir.entry v).isSome
  outside : ∀ v, v * PGSIZE < PGROUNDUP oldsz ∨ newsz ≤ v * PGSIZE →
    u'.pgdir.entry v = u.pgdir.entry v
  bytes : ∀ pa, pa ∉ u.kmem.freelist → u'.kmem.mem pa = u.kmem.mem pa

theorem page_from (low : oldsz ≤ KERNBASE) {v : Nat} : PGROUNDUP oldsz ≤ v * PGSIZE ↔
    endPage oldsz ≤ v := by
  rw [PGROUNDUP_endPage low]
  exact Nat.mul_le_mul_right_iff (by decide)

theorem page_outside (low : oldsz ≤ KERNBASE) {v : Nat} :
    v * PGSIZE < PGROUNDUP oldsz ∨ newsz ≤ v * PGSIZE ↔ v < endPage oldsz ∨ endPage newsz ≤ v := by
  rw [← Nat.not_le, page_from low, ← Nat.not_lt (b := newsz), below_endPage]
  omega

end Grow

/-- For every growth into a vacant range and every length of the free list: allocuvm comes
back, and what it says is true unless its last page takes the last free page and finds no
page for its table, which mappages reports and allocuvm does not look at. -/
theorem allocuvm_keeps_promise {oldsz newsz : Nat} (pos : 0 < oldsz) (le : oldsz ≤ newsz)
    (low : newsz < KERNBASE) (u : Uvm)
    (vacant : ∀ v, PGROUNDUP oldsz ≤ v * PGSIZE → v * PGSIZE < newsz → u.pgdir.entry v = none) :
    ((∀ pa ∈ u.kmem.freelist, Freeable u.kmem pa) → ∃ r, allocuvm u oldsz newsz = .ok r) ∧
    ((∀ r u', allocuvm u oldsz newsz = .ok (r, u') → AllocPromise u u' r oldsz newsz) ↔
      ¬ StarvesLast u.pgdir.tab (endPage oldsz) (growth oldsz newsz) u.kmem.freelist.length) := by
  have from_ : ∀ v, PGROUNDUP oldsz ≤ v * PGSIZE ↔ endPage oldsz ≤ v :=
    fun v => page_from (by omega)
  have mono := endPage_mono le
  have range : endPage oldsz + growth oldsz newsz = endPage newsz := by
    unfold growth
    omega
  simp only [from_, below_endPage] at vacant
  have ends := allocuvm_ends le low vacant
  generalize result : allocuvm u oldsz newsz = x at ends ⊢
  cases ends with
  | @full w enough filled =>
    refine ⟨fun _ => ⟨_, rfl⟩, fun _ => not_starvesLast enough, fun _ r u' done => ?_⟩
    cases done
    refine ⟨.inl rfl, fun _ v lo hi => ?_, fun zero => by omega, fun v out => ?_, filled.mem⟩
    · obtain ⟨pa, -, there, zeros⟩ :=
        filled.page v ((from_ v).mp lo) (by rw [range]; exact below_endPage.mp hi)
      exact ⟨pa, there, zeros⟩
    · rw [page_outside (by omega)] at out
      exact filled.outside v (by omega)
  | @starved w m mem eq free starves filled =>
    refine ⟨fun _ => ⟨_, rfl⟩, fun promise => ?_, fun fed => absurd starves fed⟩
    have last : endPage oldsz + m < endPage newsz := by omega
    obtain ⟨pa, there, -⟩ := (promise _ _ rfl).full rfl (endPage oldsz + m)
      ((from_ _).mpr (by omega))
      (below_endPage.mpr last)
    have absent : w.pgdir.entry (endPage oldsz + m) = none := by
      rw [filled.outside _ (.inr (Nat.le_refl _)), vacant _ (by omega) last]
    cases absent.symm.trans there
  | @failed x m less short fed stuck =>
    have grows : oldsz < newsz := by
      by_contra same
      have : oldsz = newsz := by omega
      subst this
      omega
    obtain ⟨back, restored⟩ := stuck.rollback grows (Nat.le_of_lt low) (by omega) vacant
    refine ⟨fun listed => ?_, fun _ => fed, fun _ r u' done => ?_⟩
    · obtain ⟨r, ok⟩ := back listed
      exact ⟨_, by rw [ok, ok_bind]⟩
    · obtain ⟨y, freed, eq⟩ := bind_ok.mp done
      cases eq
      have same := restored y freed
      refine ⟨.inr rfl, fun zero => by omega, fun _ v => ?_, fun v _ => ?_, same.mem⟩
      · rw [same.entry]
      · rw [same.entry]

def bare (freelist : List Nat) : Uvm where
  pgdir := {}
  kmem := { freelist := freelist }

/-- Two free pages are enough for one page and its page table. -/
theorem allocuvm_keeps_promise_bare :
    (∃ r, allocuvm (bare [300, 301]) PGSIZE (2 * PGSIZE) = .ok r) ∧
    ∀ r u', allocuvm (bare [300, 301]) PGSIZE (2 * PGSIZE) = .ok (r, u') →
      AllocPromise (bare [300, 301]) u' r PGSIZE (2 * PGSIZE) := by
  have promise := allocuvm_keeps_promise (by decide) (by decide) (by decide) (bare [300, 301])
    (fun _ _ _ => rfl : ∀ v, PGROUNDUP PGSIZE ≤ v * PGSIZE → v * PGSIZE < 2 * PGSIZE → _)
  exact ⟨promise.1 (by decide), promise.2.mpr (by decide)⟩

/-- One free page and no page table: allocuvm returns the new size, and the page it was to
map is not there. -/
theorem allocuvm_maps_nothing :
    ∃ u', allocuvm (bare [300]) PGSIZE (2 * PGSIZE) = .ok (2 * PGSIZE, u') ∧
      u'.pgdir.entry 1 = none ∧
      ¬ AllocPromise (bare [300]) u' (2 * PGSIZE) PGSIZE (2 * PGSIZE) := by
  have loop : allocuvmLoop (NPAGES + 1) (bare [300]) (1 * PGSIZE) PGSIZE (2 * PGSIZE) =
      .ok (2 * PGSIZE, (bare [300]).losePage 300) := by
    rw [allocuvmLoop_lose (by decide) (by decide) rfl rfl rfl]
    exact allocuvmLoop_end (by decide)
  refine ⟨(bare [300]).losePage 300, ?_, rfl, fun promise => ?_⟩
  · unfold allocuvm
    rw [if_neg (by decide), if_neg (by decide), show PGROUNDUP PGSIZE = 1 * PGSIZE by decide, loop]
  · obtain ⟨pa, there, -⟩ := promise.full rfl 1 (by decide) (by decide)
    cases there

end MmapXv6
