import MmapXv6.Vm.Range

/-! The loop of deallocuvm page by page. From a missing page table it jumps by the size
of a table, counted from where it stands, so it comes down at the same index of a later
table and leaves out the pages of that table before the index. Everything else in the
range is visited, and a page that is present there goes to kfree. -/
namespace MmapXv6

open Lib (bind_ok ok_bind)
open Function

variable {e : Pte} {q : Nat}

def endPage (sz : Nat) : Nat := (sz + (PGSIZE - 1)) / PGSIZE

/-- Page v is jumped over by a loop that starts at page p: its table is the first that is
there, it is not the one of p, and v stands before the index of p. -/
def Skipped (tab : Nat → Option Nat) (p v : Nat) : Prop :=
  p / NPTENTRIES < v / NPTENTRIES ∧ v % NPTENTRIES < p % NPTENTRIES ∧
    ∀ i, i < v / NPTENTRIES → p / NPTENTRIES ≤ i → tab i = none

instance (tab : Nat → Option Nat) (p v : Nat) : Decidable (Skipped tab p v) :=
  inferInstanceAs (Decidable (_ ∧ _ ∧ _))

def Freeable (k : Kmem) (pa : Nat) : Prop := pa ≠ 0 ∧ k.kend ≤ pa ∧ pa < PHYSTOP / PGSIZE

instance (k : Kmem) (pa : Nat) : Decidable (Freeable k pa) :=
  inferInstanceAs (Decidable (_ ∧ _ ∧ _))

def visitPage (d : PgDir) (p v : Nat) : Option Nat :=
  if Skipped d.tab p v then none else (d.entry v).map Pte.pa

def passed (d : PgDir) (p q : Nat) : List Nat := (List.range' p (q - p)).filterMap (visitPage d p)

structure Cleared (u u' : Uvm) (p q : Nat) : Prop where
  tab : u'.pgdir.tab = u.pgdir.tab
  gone : ∀ v, p ≤ v → v < q → ¬ Skipped u.pgdir.tab p v → u'.pgdir.entry v = none
  kept : ∀ v, v < p ∨ q ≤ v ∨ Skipped u.pgdir.tab p v → u'.pgdir.entry v = u.pgdir.entry v
  freelist : u'.kmem.freelist = (passed u.pgdir p q).reverse ++ u.kmem.freelist
  kend : u'.kmem.kend = u.kmem.kend
  mem : ∀ f, f ∉ passed u.pgdir p q → u'.kmem.mem f = u.kmem.mem f

section Skip
variable {tab : Nat → Option Nat} {p q v : Nat}

theorem not_skipped (there : (tab (p / NPTENTRIES)).isSome) : ¬ Skipped tab p v := by
  rintro ⟨later, -, absent⟩
  rw [absent _ later (Nat.le_refl _)] at there
  cases there

theorem not_skipped_succ (there : (tab (p / NPTENTRIES)).isSome) : ¬ Skipped tab (p + 1) v := by
  by_cases boundary : (p + 1) % NPTENTRIES = 0
  · rintro ⟨-, before, -⟩
    omega
  · have same : (p + 1) / NPTENTRIES = p / NPTENTRIES := by
      simp only [NPTENTRIES] at boundary ⊢
      omega
    exact not_skipped (by rw [same]; exact there)

theorem next_table : (p + NPTENTRIES) / NPTENTRIES = p / NPTENTRIES + 1 :=
  Nat.add_div_right p (by decide)

theorem skipped_jump (absent : tab (p / NPTENTRIES) = none) (after : p + NPTENTRIES ≤ v) :
    Skipped tab (p + NPTENTRIES) v ↔ Skipped tab p v := by
  unfold Skipped
  rw [next_table, Nat.add_mod_right]
  constructor
  · rintro ⟨later, before, tables⟩
    refine ⟨by omega, before, fun i low high => ?_⟩
    by_cases first : i = p / NPTENTRIES
    · rw [first, absent]
    · exact tables i low (by omega)
  · rintro ⟨later, before, tables⟩
    refine ⟨?_, before, fun i low high => tables i low (by omega)⟩
    simp only [NPTENTRIES] at after later before ⊢
    omega

theorem jumped (absent : tab (p / NPTENTRIES) = none) (low : p ≤ v) (high : v < p + NPTENTRIES) :
    v / NPTENTRIES = p / NPTENTRIES ∨ Skipped tab p v := by
  by_cases same : v / NPTENTRIES = p / NPTENTRIES
  · exact .inl same
  · right
    have later : v / NPTENTRIES = p / NPTENTRIES + 1 := by
      simp only [NPTENTRIES] at low high same ⊢
      omega
    refine ⟨by omega, ?_, fun i below above => ?_⟩
    · simp only [NPTENTRIES] at low high later ⊢
      omega
    · rw [show i = p / NPTENTRIES by omega, absent]

end Skip

section Passed
variable {d : PgDir} {p q : Nat}

theorem passed_nil (done : q ≤ p) : passed d p q = [] := by
  simp [passed, Nat.sub_eq_zero_of_le done]

theorem visitPage_of_table (there : (d.tab (p / NPTENTRIES)).isSome) (v : Nat) :
    visitPage d p v = (d.entry v).map Pte.pa := if_neg (not_skipped there)

theorem visitPage_succ (there : (d.tab (p / NPTENTRIES)).isSome) (v : Nat) :
    visitPage d (p + 1) v = (d.entry v).map Pte.pa := if_neg (not_skipped_succ there)

theorem passed_step (there : (d.tab (p / NPTENTRIES)).isSome) (below : p < q) :
    passed d p q = ((d.entry p).map Pte.pa).toList ++ passed d (p + 1) q := by
  have rest : (List.range' (p + 1) (q - (p + 1))).filterMap (visitPage d p) = passed d (p + 1) q :=
    List.filterMap_congr fun v _ => by rw [visitPage_of_table there, visitPage_succ there]
  rw [passed, show q - p = q - (p + 1) + 1 by omega, List.range'_succ, List.filterMap_cons, rest,
    visitPage_of_table there]
  cases d.entry p <;> rfl

theorem passed_jump (absent : d.tab (p / NPTENTRIES) = none) :
    passed d p q = passed d (p + NPTENTRIES) q := by
  have nothing : ∀ n, n ≤ NPTENTRIES → (List.range' p n).filterMap (visitPage d p) = [] := by
    intro n small
    rw [List.filterMap_eq_nil_iff]
    intro v mem
    obtain ⟨low, high⟩ := List.mem_range'_1.mp mem
    unfold visitPage
    rcases jumped absent low (by omega) with same | skipped
    · rw [d.entry_of_absent (by rw [same]; exact absent)]
      exact ite_self _
    · exact if_pos skipped
  by_cases past : q ≤ p + NPTENTRIES
  · rw [passed_nil past, passed, nothing _ (by omega)]
  · have split : List.range' p (q - p) =
        List.range' p NPTENTRIES ++ List.range' (p + NPTENTRIES) (q - (p + NPTENTRIES)) := by
      rw [List.range'_append_1, show NPTENTRIES + (q - (p + NPTENTRIES)) = q - p by omega]
    rw [passed, split, List.filterMap_append, nothing _ (Nat.le_refl _), List.nil_append]
    refine List.filterMap_congr fun v mem => ?_
    have after := (List.mem_range'_1.mp mem).1
    unfold visitPage
    simp only [skipped_jump absent after]

theorem passed_set (there : (d.tab (p / NPTENTRIES)).isSome) :
    passed (d.set p none) (p + 1) q = passed d (p + 1) q := by
  refine List.filterMap_congr fun v mem => ?_
  have after := (List.mem_range'_1.mp mem).1
  rw [visitPage_succ (d := d.set p none) there, visitPage_succ there,
    d.entry_set_ne none (by omega)]

end Passed

section Loop
variable {u u' : Uvm} {n p oldsz : Nat}

theorem endPage_mul (p : Nat) : endPage (p * PGSIZE) = p := by
  unfold endPage
  simp only [PGSIZE]
  omega

theorem below_endPage : p * PGSIZE < oldsz ↔ p < endPage oldsz := by
  unfold endPage
  simp only [PGSIZE]
  omega

theorem kfree_freeable {k : Kmem} {pa : Nat} (ok : Freeable k pa) :
    k.kfree pa = .ok { k.memset pa 1 with freelist := pa :: k.freelist } := by
  unfold Kmem.kfree
  rw [if_neg]
  obtain ⟨-, low, high⟩ := ok
  omega

theorem deallocPage_eq (there : (u.pgdir.tab (p / NPTENTRIES)).isSome) :
    deallocPage u (p * PGSIZE) = match u.pgdir.entry p with
      | none => .ok u
      | some e => if Freeable u.kmem e.pa then
          .ok ⟨u.pgdir.set p none,
            { u.kmem.memset e.pa 1 with freelist := e.pa :: u.kmem.freelist }⟩
        else .error .kfree := by
  have page : p * PGSIZE / PGSIZE = p := Nat.mul_div_cancel p (by decide)
  unfold deallocPage
  rw [page, u.pgdir.entry_of_table there]
  cases u.pgdir.pte p with
  | none => rfl
  | some e =>
    dsimp only
    by_cases ok : Freeable u.kmem e.pa
    · rw [if_neg ok.1, kfree_freeable ok, if_pos ok]
      rfl
    · rw [if_neg ok]
      by_cases zero : e.pa = 0
      · rw [if_pos zero]
      · rw [if_neg zero]
        unfold Kmem.kfree
        rw [if_pos]
        · rfl
        · by_contra both
          exact ok ⟨zero, by omega, by omega⟩

theorem word_table {a hi : Nat} (below : a < hi) (low : hi ≤ KERNBASE) :
    (a + (NPTENTRIES - 1) * PGSIZE + PGSIZE) % 2 ^ 32 = a + NPTENTRIES * PGSIZE := by
  simp only [NPTENTRIES, PGSIZE, KERNBASE] at low ⊢
  omega

theorem deallocuvmLoop_page (low : oldsz ≤ KERNBASE) (below : p < endPage oldsz) :
    deallocuvmLoop (n + 1) u (p * PGSIZE) oldsz =
      if (u.pgdir.tab (p / NPTENTRIES)).isSome then do
        let w ← deallocPage u (p * PGSIZE)
        deallocuvmLoop n w ((p + 1) * PGSIZE) oldsz
      else deallocuvmLoop n u ((p + NPTENTRIES) * PGSIZE) oldsz := by
  have less := below_endPage.mpr below
  have table : PDX (p * PGSIZE) = p / NPTENTRIES := by
    unfold PDX
    rw [Nat.mul_div_cancel p (by decide)]
  have next : (p * PGSIZE + PGSIZE) % 2 ^ 32 = (p + 1) * PGSIZE := by
    rw [word_next less low, Nat.succ_mul]
  have jump : (p * PGSIZE + (NPTENTRIES - 1) * PGSIZE + PGSIZE) % 2 ^ 32 =
      (p + NPTENTRIES) * PGSIZE := by
    rw [word_table less low, Nat.add_mul]
  rw [deallocuvmLoop, if_pos less, walkpgdir_noalloc, table, next, jump]
  by_cases there : (u.pgdir.tab (p / NPTENTRIES)).isSome
  · simp only [there, if_true]
  · simp only [there, if_false, Bool.false_eq_true]

theorem deallocuvmLoop_end (done : endPage oldsz ≤ p) :
    deallocuvmLoop (n + 1) u (p * PGSIZE) oldsz = .ok u := by
  rw [deallocuvmLoop, if_neg]
  rw [below_endPage]
  omega

/-- Every page that the loop visits and finds present is one that kfree takes. -/
def AllFreeable (u : Uvm) (p q : Nat) : Prop :=
  ∀ v e, p ≤ v → v < q → ¬ Skipped u.pgdir.tab p v → u.pgdir.entry v = some e → Freeable u.kmem e.pa

theorem AllFreeable.jump (absent : u.pgdir.tab (p / NPTENTRIES) = none) :
    AllFreeable u (p + NPTENTRIES) q ↔ AllFreeable u p q := by
  constructor
  · intro h v e low high visited there
    by_cases near : v < p + NPTENTRIES
    · rcases jumped absent low near with same | skipped
      · rw [u.pgdir.entry_of_absent (by rw [same]; exact absent)] at there
        cases there
      · exact absurd skipped visited
    · exact h v e (by omega) high (by rwa [skipped_jump absent (by omega)]) there
  · intro h v e low high visited there
    exact h v e (by omega) high (by rwa [← skipped_jump absent low]) there

theorem AllFreeable.table (there : (u.pgdir.tab (p / NPTENTRIES)).isSome) (below : p < q) :
    AllFreeable u p q ↔ (∀ e, u.pgdir.entry p = some e → Freeable u.kmem e.pa) ∧
      AllFreeable u (p + 1) q := by
  constructor
  · intro h
    exact ⟨fun e here => h p e (Nat.le_refl p) below (not_skipped there) here,
      fun v e low high _ here => h v e (by omega) high (not_skipped there) here⟩
  · rintro ⟨first, rest⟩ v e low high - here
    by_cases same : v = p
    · exact first e (same ▸ here)
    · exact rest v e (by omega) high (not_skipped_succ there) here

theorem Cleared.end (done : endPage oldsz ≤ p) : Cleared u u p (endPage oldsz) where
  tab := rfl
  gone := fun v low high => by omega
  kept := fun _ _ => rfl
  freelist := by
    rw [passed_nil done]
    rfl
  kend := rfl
  mem := fun _ _ => rfl

theorem Cleared.jump (absent : u.pgdir.tab (p / NPTENTRIES) = none)
    (h : Cleared u u' (p + NPTENTRIES) q) : Cleared u u' p q where
  tab := h.tab
  gone v low high visited := by
    by_cases near : v < p + NPTENTRIES
    · rw [h.kept v (.inl near)]
      have same := (jumped absent low near).resolve_right visited
      exact u.pgdir.entry_of_absent (by rw [same]; exact absent)
    · exact h.gone v (by omega) high (by rwa [skipped_jump absent (by omega)])
  kept v out := by
    by_cases near : v < p + NPTENTRIES
    · exact h.kept v (.inl near)
    · refine h.kept v ?_
      rw [skipped_jump absent (by omega)]
      exact .inr (out.resolve_left (by omega))
  freelist := by
    rw [passed_jump absent]
    exact h.freelist
  kend := h.kend
  mem := by
    rw [passed_jump absent]
    exact h.mem

theorem Cleared.pass (there : (u.pgdir.tab (p / NPTENTRIES)).isSome) (below : p < q)
    (none : u.pgdir.entry p = none) (h : Cleared u u' (p + 1) q) : Cleared u u' p q where
  tab := h.tab
  gone v low high _ := by
    by_cases same : v = p
    · rw [h.kept v (.inl (by omega)), same, none]
    · exact h.gone v (by omega) high (not_skipped_succ there)
  kept v out := by
    apply h.kept
    rcases out with before | past | skipped
    · exact .inl (by omega)
    · exact .inr (.inl past)
    · exact absurd skipped (not_skipped there)
  freelist := by
    rw [passed_step there below, none]
    exact h.freelist
  kend := h.kend
  mem := by
    rw [passed_step there below, none]
    exact h.mem

def Uvm.release (u : Uvm) (p pa : Nat) : Uvm :=
  ⟨u.pgdir.set p none, { u.kmem.memset pa 1 with freelist := pa :: u.kmem.freelist }⟩

theorem Cleared.free (below : p < q) (here : u.pgdir.entry p = some e)
    (h : Cleared (u.release p e.pa) u' (p + 1) q) : Cleared u u' p q := by
  have there : (u.pgdir.tab (p / NPTENTRIES)).isSome := PgDir.table_of_entry here
  have entry : (u.release p e.pa).pgdir.entry = update u.pgdir.entry p none :=
    u.pgdir.entry_set none there
  have list : passed u.pgdir p q = e.pa :: passed (u.release p e.pa).pgdir (p + 1) q := by
    rw [passed_step there below, here]
    exact congrArg (e.pa :: ·) (passed_set there).symm
  constructor
  · exact h.tab
  · intro v low high _
    by_cases same : v = p
    · rw [h.kept v (.inl (by omega)), entry, same, update_self]
    · exact h.gone v (by omega) high (not_skipped_succ there)
  · intro v out
    have ne : v ≠ p := by
      rintro rfl
      rcases out with before | past | skipped
      · omega
      · omega
      · exact not_skipped there skipped
    rw [h.kept v, entry, update_of_ne ne]
    rcases out with before | past | skipped
    · exact .inl (by omega)
    · exact .inr (.inl past)
    · exact absurd skipped (not_skipped there)
  · rw [h.freelist, list]
    simp [Uvm.release]
  · exact h.kend
  · intro f out
    rw [list, List.mem_cons, not_or] at out
    rw [h.mem f out.2]
    exact update_of_ne out.1 _ _

theorem AllFreeable.release :
    AllFreeable (u.release p e.pa) (p + 1) q ↔ AllFreeable u (p + 1) q := by
  have same : ∀ v, p + 1 ≤ v → (u.release p e.pa).pgdir.entry v = u.pgdir.entry v :=
    fun v after => u.pgdir.entry_set_ne none (by omega)
  constructor
  · intro h v f low high visited there
    exact h v f low high visited (by rw [same v low, there])
  · intro h v f low high visited there
    exact h v f low high visited (by rw [← same v low, there])

/-- The loop, with enough passes left: it clears what it visits or stops at the first page
that kfree does not take. -/
theorem deallocuvmLoop_cleared (low : oldsz ≤ KERNBASE) (fuel : endPage oldsz ≤ n + p) :
    (AllFreeable u p (endPage oldsz) → ∃ u', deallocuvmLoop (n + 1) u (p * PGSIZE) oldsz = .ok u' ∧
      Cleared u u' p (endPage oldsz)) ∧
    (¬ AllFreeable u p (endPage oldsz) → deallocuvmLoop (n + 1) u (p * PGSIZE) oldsz =
      .error .kfree) := by
  induction n generalizing u p with
  | zero =>
    have done : endPage oldsz ≤ p := by omega
    rw [deallocuvmLoop_end done]
    exact ⟨fun _ => ⟨u, rfl, .end done⟩, fun failed => absurd (fun v e low high => by omega) failed⟩
  | succ n ih =>
    by_cases done : endPage oldsz ≤ p
    · rw [deallocuvmLoop_end done]
      exact ⟨fun _ => ⟨u, rfl, .end done⟩, fun failed =>
        absurd (fun v e low high => by omega) failed⟩
    · have below : p < endPage oldsz := by omega
      rw [deallocuvmLoop_page low below]
      cases table : u.pgdir.tab (p / NPTENTRIES) with
      | none =>
        obtain ⟨clears, stops⟩ :=
          ih (u := u) (p := p + NPTENTRIES) (by simp only [NPTENTRIES]; omega)
        rw [AllFreeable.jump table] at clears stops
        simp only [Option.isSome_none, Bool.false_eq_true, if_false]
        refine ⟨fun ok => ?_, stops⟩
        obtain ⟨u', result, cleared⟩ := clears ok
        exact ⟨u', result, cleared.jump table⟩
      | some pgtab =>
        have there : (u.pgdir.tab (p / NPTENTRIES)).isSome := by
          rw [table]
          rfl
        simp only [Option.isSome_some, if_true]
        rw [AllFreeable.table there below, deallocPage_eq there]
        cases here : u.pgdir.entry p with
        | none =>
          obtain ⟨clears, stops⟩ := ih (u := u) (p := p + 1) (by omega)
          refine ⟨fun ok => ?_, fun failed => stops fun rest => failed ⟨by simp, rest⟩⟩
          obtain ⟨u', result, cleared⟩ := clears ok.2
          exact ⟨u', result, cleared.pass there below here⟩
        | some e =>
          obtain ⟨clears, stops⟩ := ih (u := u.release p e.pa) (p := p + 1) (by omega)
          rw [AllFreeable.release] at clears stops
          dsimp only
          by_cases ok : Freeable u.kmem e.pa
          · rw [if_pos ok]
            refine ⟨fun all => ?_, fun failed => stops fun rest => failed ⟨?_, rest⟩⟩
            · obtain ⟨u', result, cleared⟩ := clears all.2
              exact ⟨u', result, cleared.free below here⟩
            · rintro f same
              cases same
              exact ok
          · rw [if_neg ok]
            exact ⟨fun all => absurd (all.1 e rfl) ok, fun _ => rfl⟩

theorem PGROUNDUP_endPage {sz : Nat} (low : sz ≤ KERNBASE) :
    PGROUNDUP sz = endPage sz * PGSIZE := by
  unfold PGROUNDUP endPage
  simp only [PGSIZE, KERNBASE] at low ⊢
  omega

theorem endPage_le {sz : Nat} (low : sz ≤ KERNBASE) : endPage sz ≤ UPAGES := by
  unfold endPage
  simp only [UPAGES, PGSIZE, KERNBASE] at low ⊢
  omega

theorem deallocuvm_cleared {newsz : Nat} (less : newsz < oldsz) (low : oldsz ≤ KERNBASE) :
    (AllFreeable u (endPage newsz) (endPage oldsz) →
      ∃ u', deallocuvm u oldsz newsz = .ok (newsz, u') ∧
      Cleared u u' (endPage newsz) (endPage oldsz)) ∧
    (¬ AllFreeable u (endPage newsz) (endPage oldsz) →
      deallocuvm u oldsz newsz = .error .kfree) := by
  have pages := endPage_le low
  obtain ⟨clears, stops⟩ := deallocuvmLoop_cleared (u := u) (n := NPAGES) (p := endPage newsz) low
    (by simp only [UPAGES, NPAGES, NPDENTRIES, NPTENTRIES, PGSIZE, KERNBASE] at pages ⊢; omega)
  unfold deallocuvm
  rw [if_neg (by omega), PGROUNDUP_endPage (by omega)]
  constructor
  · intro ok
    obtain ⟨u', loop, cleared⟩ := clears ok
    exact ⟨u', by rw [loop, ok_bind], cleared⟩
  · intro failed
    rw [stops failed]
    rfl

end Loop

def presentPages (d : PgDir) (newsz oldsz : Nat) : List Nat :=
  (List.range' (endPage newsz) (endPage oldsz - endPage newsz)).filterMap fun v =>
    (d.entry v).map Pte.pa

/-- The range is empty, each page that was there went to kfree once, and all else stays. -/
structure Emptied (u u' : Uvm) (oldsz newsz : Nat) : Prop where
  empty : ∀ v, PGROUNDUP newsz ≤ v * PGSIZE → v * PGSIZE < oldsz → u'.pgdir.entry v = none
  once : u'.kmem.freelist = (presentPages u.pgdir newsz oldsz).reverse ++ u.kmem.freelist
  outside : ∀ v, v * PGSIZE < PGROUNDUP newsz ∨ oldsz ≤ v * PGSIZE →
    u'.pgdir.entry v = u.pgdir.entry v

/-- deallocuvm empties its range exactly when kfree takes every page that is there and the
first jump, when it starts inside a missing page table, leaves none of them out. -/
theorem deallocuvm_empties {newsz oldsz : Nat} (less : newsz < oldsz) (low : oldsz ≤ KERNBASE)
    (u : Uvm) :
    (∃ u', deallocuvm u oldsz newsz = .ok (newsz, u') ∧ Emptied u u' oldsz newsz) ↔
      ∀ v e, PGROUNDUP newsz ≤ v * PGSIZE → v * PGSIZE < oldsz → u.pgdir.entry v = some e →
        Freeable u.kmem e.pa ∧ ¬ Skipped u.pgdir.tab (PGROUNDUP newsz / PGSIZE) v := by
  have start : ∀ v, PGROUNDUP newsz ≤ v * PGSIZE ↔ endPage newsz ≤ v := fun v => by
    rw [PGROUNDUP_endPage (by omega)]
    exact Nat.mul_le_mul_right_iff (by decide)
  have first : PGROUNDUP newsz / PGSIZE = endPage newsz := by
    rw [PGROUNDUP_endPage (by omega), Nat.mul_div_cancel _ (by decide)]
  have outside : ∀ v, v * PGSIZE < PGROUNDUP newsz ∨ oldsz ≤ v * PGSIZE ↔
      v < endPage newsz ∨ endPage oldsz ≤ v := fun v => by
    rw [← Nat.not_le, start, ← Nat.not_lt (b := oldsz), below_endPage]
    omega
  simp only [start, below_endPage, first]
  obtain ⟨clears, stops⟩ := deallocuvm_cleared (u := u) less low
  constructor
  · rintro ⟨u', done, emptied⟩
    have all : AllFreeable u (endPage newsz) (endPage oldsz) := by
      by_contra failed
      cases done.symm.trans (stops failed)
    obtain ⟨w, result, cleared⟩ := clears all
    cases done.symm.trans result
    intro v e lo hi there
    have visited : ¬ Skipped u.pgdir.tab (endPage newsz) v := by
      intro skipped
      have gone := emptied.empty v ((start v).mpr lo) (below_endPage.mpr hi)
      rw [cleared.kept v (.inr (.inr skipped)), there] at gone
      cases gone
    exact ⟨all v e lo hi visited there, visited⟩
  · intro condition
    obtain ⟨u', done, cleared⟩ := clears fun v e lo hi _ there => (condition v e lo hi there).1
    refine ⟨u', done, fun v lo hi => ?_, ?_, fun v out => ?_⟩
    · rw [start] at lo
      rw [below_endPage] at hi
      by_cases skipped : Skipped u.pgdir.tab (endPage newsz) v
      · rw [cleared.kept v (.inr (.inr skipped))]
        cases there : u.pgdir.entry v with
        | none => rfl
        | some e => exact absurd skipped (condition v e lo hi there).2
      · exact cleared.gone v lo hi skipped
    · rw [cleared.freelist]
      congr 2
      refine List.filterMap_congr fun v mem => ?_
      obtain ⟨lo, hi⟩ := List.mem_range'_1.mp mem
      unfold visitPage
      split
      · cases there : u.pgdir.entry v with
        | none => rfl
        | some e => exact absurd ‹_› (condition v e lo (by omega) there).2
      · rfl
    · rw [outside] at out
      exact cleared.kept v (out.imp id .inl)

/-- A page at 0, and one at the start of the third table; the second table is missing. -/
def gapped : Uvm where
  pgdir := {
    tab := fun i => if i = 0 ∨ i = 2 then some (300 + i) else none
    pte := fun v => if v = 0 ∨ v = 2 * NPTENTRIES then some (userPte (400 + v)) else none }
  kmem := {}

theorem gapped_entry {v : Nat} (there : gapped.pgdir.entry v = some e) :
    (v = 0 ∨ v = 2 * NPTENTRIES) ∧ e = userPte (400 + v) := by
  have pte := gapped.pgdir.entry_of_table (PgDir.table_of_entry there)
  rw [there] at pte
  by_cases here : v = 0 ∨ v = 2 * NPTENTRIES
  · exact ⟨here, Option.some.inj (pte.trans (if_pos here))⟩
  · cases pte.trans (if_neg here)

theorem deallocuvm_empties_gapped :
    ∃ u', deallocuvm gapped (2 * NPTENTRIES * PGSIZE + PGSIZE) 0 = .ok (0, u') ∧
      Emptied gapped u' (2 * NPTENTRIES * PGSIZE + PGSIZE) 0 := by
  rw [deallocuvm_empties (by decide) (by decide)]
  intro v e _ _ there
  obtain ⟨rfl | rfl, rfl⟩ := gapped_entry there
  · exact ⟨by decide, by decide⟩
  · exact ⟨by decide, by decide⟩

/-- From the second page of the missing table the jump comes down behind the page. -/
theorem deallocuvm_jumps_over :
    gapped.pgdir.entry (2 * NPTENTRIES) = some (userPte 2448) ∧
    deallocuvm gapped (2 * NPTENTRIES * PGSIZE + PGSIZE) (NPTENTRIES * PGSIZE + PGSIZE) =
      .ok (NPTENTRIES * PGSIZE + PGSIZE, gapped) ∧
    ¬ ∃ u', deallocuvm gapped (2 * NPTENTRIES * PGSIZE + PGSIZE) (NPTENTRIES * PGSIZE + PGSIZE) =
      .ok (NPTENTRIES * PGSIZE + PGSIZE, u') ∧
      Emptied gapped u' (2 * NPTENTRIES * PGSIZE + PGSIZE) (NPTENTRIES * PGSIZE + PGSIZE) := by
  have there : gapped.pgdir.entry (2 * NPTENTRIES) = some (userPte 2448) := by decide
  have loop : deallocuvmLoop (NPAGES + 1) gapped ((NPTENTRIES + 1) * PGSIZE)
      (2 * NPTENTRIES * PGSIZE + PGSIZE) = .ok gapped := by
    rw [deallocuvmLoop_page (by decide) (by decide), if_neg (by decide)]
    exact deallocuvmLoop_end (by decide)
  have done : deallocuvm gapped (2 * NPTENTRIES * PGSIZE + PGSIZE) (NPTENTRIES * PGSIZE + PGSIZE) =
      .ok (NPTENTRIES * PGSIZE + PGSIZE, gapped) := by
    unfold deallocuvm
    rw [if_neg (by decide),
      show PGROUNDUP (NPTENTRIES * PGSIZE + PGSIZE) = (NPTENTRIES + 1) * PGSIZE by decide,
      loop, ok_bind]
  refine ⟨there, done, ?_⟩
  rintro ⟨u', result, emptied⟩
  cases done.symm.trans result
  have gone := emptied.empty (2 * NPTENTRIES) (by decide) (by decide)
  cases there.symm.trans gone

end MmapXv6
