import MmapXv6.Vm.Losses
import MmapXv6.Vm.Space

/-! Where the functions of vm.c return. The pages of a directory and of the free list
are pages that kfree takes, which is so after kinit2 and stays so, as no page is ever
made up. Then nothing below KERNBASE fails to be freed, and fork fails only at a page
below sz that has no page table. -/
namespace MmapXv6

open Lib (bind_ok)

variable {k : Kmem} {parent : PgDir} {x : Nat}

structure Uvm.Valid (u : Uvm) : Prop where
  zero : 0 < u.kmem.kend
  page : ∀ x, 0 < u.count x → u.kmem.kend ≤ x ∧ x < PHYSTOP / PGSIZE

variable {u w : Uvm} {leak stray : Prop}

theorem Moves.valid (h : Moves leak stray u w) (valid : u.Valid) : w.Valid := by
  obtain ⟨kend, -⟩ := h.fixed
  refine ⟨by rw [kend]; exact valid.zero, fun x pos => ?_⟩
  rw [kend]
  exact valid.page x (lt_of_lt_of_le pos (h.count_le x))

theorem Uvm.count_free (free : x ∈ u.kmem.freelist) : 0 < u.count x := by
  have := List.count_pos_iff.mpr free
  unfold Uvm.count
  omega

theorem PgDir.count_entry {d : PgDir} {v : Nat} {e : Pte} (user : v < UPAGES)
    (there : d.entry v = some e) :
    0 < d.count e.pa := by
  have := PgDir.count_unmap user there e.pa
  rw [if_pos rfl] at this
  omega

theorem Uvm.count_user {v : Nat} {e : Pte} (user : v < UPAGES) (there : u.pgdir.entry v = some e) :
    0 < u.count e.pa :=
  Nat.add_pos_left (PgDir.count_entry user there) _

theorem Uvm.count_tab {i page : Nat} (index : i < NPDENTRIES) (table : u.pgdir.tab i = some page) :
    0 < u.count page := by
  have : 0 < (Lib.fibre (fun i : Fin NPDENTRIES => u.pgdir.tab i) page).card :=
    Lib.card_fibre_pos.mpr ⟨⟨i, index⟩, table⟩
  unfold Uvm.count PgDir.count
  omega

theorem Uvm.count_page : 0 < u.count u.pgdir.page := by
  unfold Uvm.count PgDir.count
  rw [if_pos rfl]
  omega

theorem Uvm.mem_of_count (pos : 0 < u.count x) :
    x ∈ u.kmem.freelist ∨ u.pgdir.page = x ∨ (∃ i < NPDENTRIES, u.pgdir.tab i = some x) ∨
      ∃ v < UPAGES, ∃ e, u.pgdir.entry v = some e ∧ e.pa = x := by
  unfold Uvm.count PgDir.count at pos
  by_cases free : 0 < u.kmem.freelist.count x
  · exact .inl (List.count_pos_iff.mp free)
  by_cases page : u.pgdir.page = x
  · exact .inr (.inl page)
  rw [if_neg page] at pos
  by_cases tab : 0 < (Lib.fibre (fun i : Fin NPDENTRIES => u.pgdir.tab i) x).card
  · obtain ⟨i, there⟩ := Lib.card_fibre_pos.mp tab
    exact .inr (.inr (.inl ⟨i, i.isLt, there⟩))
  · obtain ⟨v, there⟩ := Lib.card_fibre_pos.mp (show 0 < (Lib.fibre (fun v : Fin UPAGES =>
      u.pgdir.owner v) x).card by omega)
    unfold PgDir.owner at there
    rw [if_pos v.isLt] at there
    obtain ⟨e, entry, pa⟩ := Option.map_eq_some_iff.mp there
    exact .inr (.inr (.inr ⟨v, v.isLt, e, entry, pa⟩))

theorem Uvm.Valid.owned (valid : u.Valid) : u.Owned where
  zero := valid.zero
  free := fun x free => valid.page x (Uvm.count_free free)
  user := fun _ user _ there => valid.page _ (Uvm.count_user user there)

theorem kfree_returns (legal : k.kend ≤ x ∧ x < PHYSTOP / PGSIZE) :
    ∃ k', k.kfree x = .ok k' := ⟨_, if_neg (by omega)⟩

theorem deallocuvmLoop_returns {n a oldsz : Nat} (low : oldsz ≤ KERNBASE) (owned : u.Owned)
    (fuel : oldsz ≤ a + n * PGSIZE) : ∃ w, deallocuvmLoop (n + 1) u a oldsz = .ok w := by
  induction n generalizing u a with
  | zero => exact ⟨u, by rw [deallocuvmLoop, if_neg (by omega)]⟩
  | succ n ih =>
    rw [Nat.succ_mul] at fuel
    rw [deallocuvmLoop]
    by_cases below : a < oldsz
    · have jump : (a + (NPTENTRIES - 1) * PGSIZE + PGSIZE) % 2 ^ 32 = a + NPTENTRIES * PGSIZE := by
        simp only [NPTENTRIES, PGSIZE, KERNBASE] at low ⊢
        omega
      rw [if_pos below, walkpgdir_noalloc, word_next below low, jump]
      by_cases table : (u.pgdir.tab (PDX a)).isSome
      · rw [if_pos table]
        dsimp only
        unfold deallocPage
        rw [← u.pgdir.entry_of_table (v := a / PGSIZE) table]
        cases there : u.pgdir.entry (a / PGSIZE) with
        | none => exact ih owned (by omega)
        | some e =>
          have user : a / PGSIZE < UPAGES := user_page (by omega)
          have legal := owned.user _ user e there
          obtain ⟨k, freed⟩ := kfree_returns legal
          have nonzero : e.pa ≠ 0 := by
            have := owned.zero
            omega
          dsimp only
          rw [if_neg nonzero, freed]
          exact ih (owned.give user there freed) (by omega)
      · rw [if_neg table]
        exact ih owned (by simp only [PGSIZE, NPTENTRIES] at fuel ⊢; omega)
    · rw [if_neg below]
      exact ⟨u, rfl⟩

theorem deallocuvm_returns {oldsz newsz : Nat} (low : oldsz ≤ KERNBASE) (valid : u.Valid) :
    ∃ r w, deallocuvm u oldsz newsz = .ok (r, w) := by
  unfold deallocuvm
  split
  · exact ⟨_, _, rfl⟩
  · obtain ⟨w, loop⟩ :=
      deallocuvmLoop_returns (n := NPAGES) (a := PGROUNDUP newsz) low valid.owned (by
      simp only [KERNBASE, NPAGES, NPDENTRIES, NPTENTRIES, PGSIZE] at low ⊢
      omega)
    rw [loop]
    exact ⟨_, _, rfl⟩

theorem freeTables_returns {tab : Nat → Option Nat} {f : Kmem → Nat → Except Panic Kmem}
    (n : Nat) (step : ∀ k i, (∀ page, tab i = some page → k.kend ≤ page ∧ page < PHYSTOP / PGSIZE) →
      ∃ k', f k i = .ok k' ∧ k'.kend = k.kend)
    (legal : ∀ i page, i < n → tab i = some page → k.kend ≤ page ∧ page < PHYSTOP / PGSIZE) :
    ∃ k', (List.range n).foldlM f k = .ok k' ∧ k'.kend = k.kend := by
  induction n with
  | zero => exact ⟨k, rfl, rfl⟩
  | succ n ih =>
    obtain ⟨m, first, kend⟩ := ih fun i page lt => legal i page (by omega)
    obtain ⟨k', last, kend'⟩ := step m n (by rw [kend]; exact fun page => legal n page (by omega))
    refine ⟨k', ?_, kend'.trans kend⟩
    rw [List.range_succ, List.foldlM_append, first]
    change (List.foldlM f m [n]) = _
    rw [List.foldlM_cons, last]
    rfl

theorem freevm_returns (valid : u.Valid) : ∃ k, freevm u = .ok k := by
  have returned : ∃ r w, deallocuvm u KERNBASE 0 = .ok (r, w) :=
      deallocuvm_returns (Nat.le_refl _) valid
  obtain ⟨r, w, dealloc⟩ := returned
  have moves : Moves False False u w := deallocuvm_moves (Nat.le_refl _) dealloc
  have valid' := moves.valid valid
  have rest : ∀ f : Kmem → Nat → Except Panic Kmem,
      (∀ k i, (∀ page, w.pgdir.tab i = some page → k.kend ≤ page ∧ page < PHYSTOP / PGSIZE) →
        ∃ k', f k i = .ok k' ∧ k'.kend = k.kend) →
      ∃ k, ((List.range NPDENTRIES).foldlM f w.kmem >>= fun k => k.kfree w.pgdir.page) = .ok k := by
    intro f step
    obtain ⟨m, tables, kend⟩ := freeTables_returns (k := w.kmem) NPDENTRIES step
      fun i page lt table => valid'.page page (Uvm.count_tab lt table)
    obtain ⟨k, last⟩ := kfree_returns (k := m) (x := w.pgdir.page) (by
      rw [kend]
      exact valid'.page _ Uvm.count_page)
    exact ⟨k, by rw [tables, Lib.ok_bind, last]⟩
  unfold freevm
  rw [dealloc, Lib.ok_bind]
  refine rest _ fun k i legal => ?_
  split
  · exact ⟨k, rfl, rfl⟩
  · rename_i page table
    obtain ⟨k', freed⟩ := kfree_returns (legal page table)
    exact ⟨k', freed, (kfree_kend freed).1⟩

/-- Every page below sz has a page table, as copyuvm demands. -/
def Covered (d : PgDir) (sz : Nat) : Prop := ∀ v, v * PGSIZE < sz → (d.tab (v / NPTENTRIES)).isSome

theorem copyuvmLoop_returns {n i sz : Nat} (aligned : i % PGSIZE = 0)
    (low : sz ≤ KERNBASE) (covered : Covered parent sz) (fuel : sz ≤ i + n * PGSIZE)
    (vacant : ∀ v, i ≤ v * PGSIZE → v < UPAGES → u.pgdir.entry v = none) :
    ∃ ok w, copyuvmLoop parent (n + 1) u i sz = .ok (ok, w) := by
  induction n generalizing u i with
  | zero => exact ⟨_, _, by rw [copyuvmLoop, if_neg (by omega)]⟩
  | succ n ih =>
    rw [Nat.succ_mul] at fuel
    have here : i / PGSIZE * PGSIZE = i := by
      simp only [PGSIZE] at aligned ⊢
      omega
    rw [copyuvmLoop]
    by_cases below : i < sz
    · have table : (parent.tab (PDX i)).isSome := covered (i / PGSIZE) (by omega)
      have mapped : ¬ (parent.tab (PDX i)).isNone := by
        simp [Option.isSome_iff_ne_none] at table ⊢
        exact table
      rw [if_pos below, word_next below low, if_neg mapped]
      have later : ∀ v, i + PGSIZE ≤ v * PGSIZE → v < UPAGES → u.pgdir.entry v = none :=
        fun v lo user => vacant v (by omega) user
      cases parent.pte (i / PGSIZE) with
      | none => exact ih (page_next aligned) (by omega) later
      | some e =>
        cases taken : u.kmem.kalloc with
        | none => exact ⟨_, _, rfl⟩
        | some r =>
          obtain ⟨mem, k⟩ := r
          have word : i + PGSIZE ≤ 2 ^ 32 := by
            simp only [PGSIZE, KERNBASE] at low ⊢
            omega
          obtain ⟨⟨q, w⟩, mapped⟩ := mappages_ok
            (u := ⟨u.pgdir, { k with mem := Function.update k.mem mem (k.mem e.pa) }⟩)
            { e with pa := mem } aligned word (vacant _ (by omega) (user_page (by omega)))
          dsimp only
          rw [mapped, Lib.ok_bind]
          dsimp only
          split
          · exact ⟨_, _, rfl⟩
          · rename_i whole
            refine ih (page_next aligned) (by omega) fun v lo user => ?_
            cases mappages_page aligned word mapped with
            | none => exact absurd (by decide) whole
            | page _ entry _ _ _ =>
              rw [entry, Function.update_of_ne]
              · exact later v lo user
              · rintro rfl
                simp only [PGSIZE] at lo here
                omega
    · exact ⟨_, _, by rw [if_neg below]⟩

/-- A free list of pages that kfree takes, and a kernel whose data starts a page. -/
structure Kmem.Legal (k : Kmem) : Prop where
  zero : 0 < k.kend
  page : ∀ x ∈ k.freelist, k.kend ≤ x ∧ x < PHYSTOP / PGSIZE
  data : k.kdata.1 % PGSIZE = 0

theorem Kmem.Legal.kalloc {k' : Kmem} (legal : k.Legal) (taken : k.kalloc = some (x, k')) :
    k'.Legal ∧ k'.kend = k.kend ∧ k.kend ≤ x ∧ x < PHYSTOP / PGSIZE := by
  have hands := kalloc_hands taken (k'.mem x)
  have same : k'.kend = k.kend := hands.kend
  refine ⟨⟨by rw [same]; exact legal.zero, fun y mem => ?_, ?_⟩, same, legal.page x hands.mem_list⟩
  · rw [same]
    exact legal.page y (hands.subset mem)
  · rw [show k'.kdata = k.kdata from hands.kdata]
    exact legal.data

theorem Kmem.Legal.made {k' : Kmem} {d : PgDir} (legal : k.Legal) (made : KvmMade k (some d) k') :
    (⟨d, k'⟩ : Uvm).Valid := by
  cases made with
  | some _ _ _ _ count kend _ _ =>
    refine ⟨by dsimp only; rw [kend]; exact legal.zero, fun x pos => ?_⟩
    rw [count] at pos
    rw [kend]
    exact legal.page x (List.count_pos_iff.mp pos)

theorem copyuvm_returns {sz : Nat} (legal : k.Legal) (low : sz ≤ KERNBASE)
    (covered : Covered parent sz) : ∃ d k', copyuvm parent k sz = .ok (d, k') ∧
      k'.kend = k.kend := by
  obtain ⟨d, k', setup, made⟩ := setupkvm_made legal.data
  unfold copyuvm
  rw [setup, Lib.ok_bind]
  cases d with
  | none =>
    cases made with
    | none _ _ kend _ _ => exact ⟨_, _, rfl, kend⟩
  | some d =>
    have valid := legal.made made
    cases made with
    | some _ _ user kernel _ kend _ _ =>
      obtain ⟨ok, w, loop⟩ := copyuvmLoop_returns (n := NPAGES) (i := 0) (u := ⟨d, k'⟩)
        (by decide) low
        covered (by simp only [KERNBASE, NPAGES, NPDENTRIES, NPTENTRIES, PGSIZE] at low ⊢; omega)
        fun v _ low => user v low
      have copies := copyuvmLoop_copies (by decide) (Nat.zero_le _)
        (fun high => absurd low (by omega))
        (kernel UPAGES (by decide)) loop
      have moves : Moves _ False _ w := copies.moves
      dsimp only
      rw [loop, Lib.ok_bind]
      cases ok with
      | true => exact ⟨_, _, rfl, moves.fixed.1.trans kend⟩
      | false =>
        obtain ⟨m, freed⟩ := freevm_returns (moves.valid valid)
        dsimp only
        rw [if_neg (by decide), freed, Lib.ok_bind]
        exact ⟨_, _, rfl, (freevm_frees freed).fixed.1.trans (moves.fixed.1.trans kend)⟩

theorem Uvm.Valid.legal (valid : u.Valid) (data : u.kmem.kdata.1 % PGSIZE = 0) : u.kmem.Legal :=
  ⟨valid.zero, fun x free => valid.page x (Uvm.count_free free), data⟩

theorem copyuvm_one (legal : k.Legal)
    (room : KVMPAGES + 2 ≤ k.freelist.length) (there : (parent.entry 0).isSome) :
    ∃ d k', copyuvm parent k PGSIZE = .ok (some d, k') ∧ (⟨d, k'⟩ : Uvm).Valid ∧ k'.Legal ∧
      k'.kend = k.kend ∧ k.freelist.length ≤ k'.freelist.length + (KVMPAGES + 2) := by
  obtain ⟨d, k₁, setup, made⟩ := setupkvm_made legal.data
  unfold copyuvm
  rw [setup, Lib.ok_bind]
  cases d with
  | none =>
    cases made with
    | none short => omega
  | some d =>
    have valid := legal.made made
    cases made with
    | some count _ user kernel _ kend kdata _ =>
      have covered : Covered parent PGSIZE := by
        intro v below
        obtain rfl : v = 0 := by simp only [PGSIZE] at below; omega
        exact PgDir.table_of_entry (Option.isSome_iff_exists.mp there).choose_spec
      obtain ⟨ok, w, loop⟩ := copyuvmLoop_returns (n := NPAGES) (i := 0) (u := ⟨d, k₁⟩) (by decide)
        (by decide) covered (by decide) fun v _ low => user v low
      have copies := copyuvmLoop_copies (by decide) (Nat.zero_le _)
          (fun high => absurd high (by decide))
        (kernel UPAGES (by decide)) loop
      have moves : Moves _ False _ w := copies.moves
      have fixed := moves.fixed
      have done : ok = true ∧ k₁.freelist.length ≤ w.kmem.freelist.length + 2 := by
        cases copies with
        | stop done => exact absurd done (by decide)
        | skip _ absent _ =>
          have none : parent.entry 0 = none := absent
          rw [none] at there
          cases there
        | full _ _ empty =>
          have : k₁.freelist.length = 0 := by rw [empty]; rfl
          omega
        | starve _ _ hands empty _ =>
          have one := hands.list.length_eq
          rw [empty] at one
          dsimp only [List.length_cons, List.length_nil] at one
          omega
        | page _ _ hands maps rest =>
          have one := hands.list.length_eq
          dsimp only [List.length_cons] at one
          cases maps with
          | done _ _ free _ _ _ =>
            have need : PgDir.tableNeed d 0 ≤ 1 := by
              unfold PgDir.tableNeed
              split <;> omega
            cases rest with
            | stop _ => exact ⟨rfl, by dsimp only at free; omega⟩
            | skip below | full below | starve below | page below => exact absurd below (by decide)
      obtain ⟨rfl, left⟩ := done
      have valid' := moves.valid valid
      dsimp only
      rw [loop]
      refine ⟨_, _, rfl, valid', valid'.legal ?_, fixed.1.trans kend, by dsimp only; omega⟩
      rw [fixed.2]
      exact (congrArg (fun x : DataAddr => x.1 % PGSIZE) kdata).trans legal.data

theorem fork_returns {s : Vm} (slot : Proc) (legal : s.kmem.Legal) (low : s.proc.sz ≤ KERNBASE)
    (covered : Covered s.proc.pgdir s.proc.sz) : ∃ r, fork s slot = .ok r := by
  unfold fork
  cases taken : s.kmem.kalloc with
  | none => exact ⟨_, rfl⟩
  | some r =>
    obtain ⟨kstack, k⟩ := r
    obtain ⟨legal', same, page⟩ := legal.kalloc taken
    obtain ⟨d, k', copied, kend⟩ := copyuvm_returns legal' low covered
    dsimp only
    rw [copied, Lib.ok_bind]
    cases d with
    | some d => exact ⟨_, rfl⟩
    | none =>
      obtain ⟨m, freed⟩ := kfree_returns (k := k') (x := kstack) (by rw [kend, same]; exact page)
      dsimp only
      rw [freed]
      exact ⟨_, rfl⟩

end MmapXv6
