import MmapXv6.Vm.Alloc
import MmapXv6.Vm.Leaks

/-! What copyuvm copies, page by page. The child's pages come from the free list, which has
no page of the parent and no page twice; so a page that has been copied is not written to
again, and neither is any page of the parent. -/
namespace MmapXv6

open Lib (bind_ok ok_bind)
open Function

structure CopiedPages (parent : PgDir) (u₀ u : Uvm) (j : Nat) : Prop where
  page : ∀ v e, v < j → parent.entry v = some e → ∃ mem, mem ∈ u₀.kmem.freelist ∧
    mem ∉ u.kmem.freelist ∧
    u.pgdir.entry v = some { e with pa := mem } ∧ u.kmem.mem mem = u₀.kmem.mem e.pa
  others : ∀ v, j ≤ v ∨ parent.entry v = none → u.pgdir.entry v = u₀.pgdir.entry v
  free : u.kmem.freelist <:+ u₀.kmem.freelist
  mem : ∀ pa, pa ∉ u₀.kmem.freelist → u.kmem.mem pa = u₀.kmem.mem pa

section Loop
variable {parent : PgDir} {u₀ u w : Uvm} {n j sz : Nat}

theorem CopiedPages.start (parent : PgDir) (u : Uvm) : CopiedPages parent u u 0 where
  page := fun _ _ less => absurd less (Nat.not_lt_zero _)
  others := fun _ _ => rfl
  free := List.suffix_refl _
  mem := fun _ _ => rfl

theorem CopiedPages.skip (h : CopiedPages parent u₀ u j) (absent : parent.entry j = none) :
    CopiedPages parent u₀ u (j + 1) where
  page := fun v e less there => by
    refine h.page v e ?_ there
    by_contra last
    rw [show v = j by omega, absent] at there
    cases there
  others := fun v out => by
    refine h.others v ?_
    by_cases here : v = j
    · exact .inr (here ▸ absent)
    · exact out.imp_left fun after => by omega
  free := h.free
  mem := h.mem

/-- Page j with the bytes behind e is copied to the free page mem; a page table may have
been taken too. -/
structure CopiesPage (u w : Uvm) (j : Nat) (e : Pte) (mem : Nat) : Prop where
  taken : mem ∈ u.kmem.freelist
  left : mem ∉ w.kmem.freelist
  entry : w.pgdir.entry = update u.pgdir.entry j (some { e with pa := mem })
  free : w.kmem.freelist <:+ u.kmem.freelist
  bytes : w.kmem.mem mem = u.kmem.mem e.pa
  kept : ∀ pa, pa ∉ u.kmem.freelist → w.kmem.mem pa = u.kmem.mem pa

theorem CopiedPages.copy {e : Pte} {mem : Nat} (h : CopiedPages parent u₀ u j)
    (here : parent.entry j = some e)
    (own : e.pa ∉ u₀.kmem.freelist) (pass : CopiesPage u w j e mem) :
      CopiedPages parent u₀ w (j + 1) where
  page v f less there := by
    by_cases last : v = j
    · subst last
      rw [here] at there
      cases there
      refine ⟨mem, h.free.subset pass.taken, pass.left, ?_, ?_⟩
      · rw [pass.entry, update_self]
      · rw [pass.bytes, h.mem _ own]
    · obtain ⟨pa, listed, gone, there', same⟩ := h.page v f (by omega) there
      refine ⟨pa, listed, fun back => gone (pass.free.subset back), ?_, ?_⟩
      · rw [pass.entry, update_of_ne last, there']
      · rw [pass.kept pa gone, same]
  others v out := by
    have ne : v ≠ j := by
      rintro rfl
      rcases out with after | absent
      · omega
      · rw [here] at absent
        cases absent
    rw [pass.entry, update_of_ne ne]
    exact h.others v (out.imp_left fun after => by omega)
  free := pass.free.trans h.free
  mem pa out := by
    rw [pass.kept pa fun listed => out (h.free.subset listed), h.mem pa out]

theorem mappages_copies {e : Pte} {mem : Nat} {rest : List Nat} {r : Int} (user : j < UPAGES)
    (vacant : u.pgdir.entry j = none) (nodup : u.kmem.freelist.Nodup)
      (list : u.kmem.freelist = mem :: rest)
    (mapped : mappages ⟨u.pgdir, { u.kmem with
      freelist := rest, mem := update u.kmem.mem mem (u.kmem.mem e.pa) }⟩ (j * PGSIZE) PGSIZE
      { e with pa := mem } = .ok (r, w)) (whole : ¬ r < 0) : CopiesPage u w j e mem := by
  have word : j * PGSIZE + PGSIZE ≤ 2 ^ 32 := by
    simp only [UPAGES, KERNBASE, PGSIZE] at user ⊢
    omega
  rw [mappages_vacant word vacant] at mapped
  rw [list, List.nodup_cons] at nodup
  have first : mem ∈ u.kmem.freelist := by simp [list]
  have other : ∀ pa, pa ∉ u.kmem.freelist → pa ≠ mem := by
    rintro pa out rfl
    exact out first
  split at mapped
  · rename_i table
    cases mapped
    refine ⟨first, nodup.1, u.pgdir.entry_set _ table, ?_, update_self .., fun pa out => ?_⟩
    · rw [list]
      exact List.suffix_cons mem rest
    · exact update_of_ne (other pa out) _ _
  · rename_i table
    have absent : u.pgdir.tab (j / NPTENTRIES) = none := by simpa using table
    cases rest with
    | nil =>
      cases mapped
      exact absurd (by decide) whole
    | cons pgtab rest =>
      cases mapped
      obtain ⟨notin, -⟩ := nodup
      rw [List.mem_cons, not_or] at notin
      have made : ((u.pgdir.addTable (j / NPTENTRIES) pgtab).tab (j / NPTENTRIES)).isSome := by
        simp [PgDir.addTable]
      refine ⟨first, notin.2, ?_, ?_, ?_, fun pa out => ?_⟩
      · rw [← u.pgdir.entry_addTable pgtab absent]
        exact PgDir.entry_set _ _ made
      · rw [list]
        exact ⟨[mem, pgtab], rfl⟩
      · exact (update_of_ne notin.1 _ _).trans (update_self ..)
      · have ne : pa ≠ pgtab := by
          rintro rfl
          exact out (by simp [list])
        exact (update_of_ne ne _ _).trans (update_of_ne (other pa out) _ _)

theorem copyuvmLoop_pass (less : j < endPage sz) (user : j < UPAGES)
    (vacant : u.pgdir.entry j = none)
    (nodup : u.kmem.freelist.Nodup)
    (done : copyuvmLoop parent (n + 1) u (j * PGSIZE) sz = .ok (true, w)) :
    (parent.entry j = none ∧ copyuvmLoop parent n u ((j + 1) * PGSIZE) sz = .ok (true, w)) ∨
      ∃ e mem v, parent.entry j = some e ∧ CopiesPage u v j e mem ∧
        copyuvmLoop parent n v ((j + 1) * PGSIZE) sz = .ok (true, w) := by
  have page : j * PGSIZE / PGSIZE = j := Nat.mul_div_cancel j (by decide)
  have next : (j * PGSIZE + PGSIZE) % 2 ^ 32 = (j + 1) * PGSIZE := by
    simp only [UPAGES, KERNBASE, PGSIZE] at user ⊢
    omega
  rw [copyuvmLoop, if_pos (below_endPage.mpr less), page, next] at done
  split at done
  · cases done
  rename_i table
  have same :=
    parent.entry_of_table (v := j) (by simpa [Option.isSome_iff_ne_none, PDX, page] using table)
  split at done
  · rename_i none
    exact .inl ⟨same.trans none, done⟩
  rename_i e here
  right
  cases list : u.kmem.freelist with
  | nil =>
    rw [Kmem.kalloc, list] at done
    cases done
  | cons mem rest =>
    rw [Kmem.kalloc, list] at done
    obtain ⟨⟨r, v⟩, mapped, rest⟩ := bind_ok.mp done
    dsimp only at rest
    split at rest
    · cases rest
    rename_i whole
    exact ⟨e, mem, v, same.trans here, mappages_copies user vacant nodup list mapped whole, rest⟩

theorem copyuvmLoop_pages (h : CopiedPages parent u₀ u j) (nodup : u₀.kmem.freelist.Nodup)
    (vacant : ∀ v, v < UPAGES → u₀.pgdir.entry v = none) (kernel : (u₀.pgdir.entry UPAGES).isSome)
    (own : ∀ v e, v < UPAGES → parent.entry v = some e → e.pa ∉ u₀.kmem.freelist)
    (legal : KERNBASE < sz → (parent.entry UPAGES).isSome) (low : j ≤ UPAGES)
    (inside : j ≤ endPage sz) (done : copyuvmLoop parent n u (j * PGSIZE) sz = .ok (true, w)) :
    sz ≤ KERNBASE ∧ CopiedPages parent u₀ w (endPage sz) := by
  induction n generalizing u j with
  | zero => cases done
  | succ n ih =>
    by_cases finished : j = endPage sz
    · subst finished
      rw [copyuvmLoop, if_neg (by rw [below_endPage]; omega)] at done
      cases done
      refine ⟨?_, h⟩
      unfold endPage at low
      simp only [UPAGES, KERNBASE, PGSIZE] at low ⊢
      omega
    · have less : j < endPage sz := by omega
      by_cases user : j < UPAGES
      · have empty : u.pgdir.entry j = none := by
          rw [h.others j (.inl (Nat.le_refl j)), vacant j user]
        rcases copyuvmLoop_pass less user empty (nodup.sublist h.free.sublist) done with
          ⟨absent, rest⟩ | ⟨e, mem, v, here, pass, rest⟩
        · exact ih (h.skip absent) (by omega) (by omega) rest
        · exact ih (h.copy here (own j e user here) pass) (by omega) (by omega) rest
      · obtain rfl : j = UPAGES := by omega
        have high : KERNBASE < sz := below_endPage.mpr less
        have there : (u.pgdir.entry UPAGES).isSome := by
          rw [h.others UPAGES (.inl (Nat.le_refl _))]
          exact kernel
        cases (copyuvmLoop_high high (legal high) there done).1

end Loop

structure PrivateCopy (parent d : PgDir) (k k' : Kmem) (sz : Nat) : Prop where
  small : sz ≤ KERNBASE
  present : ∀ v e, v * PGSIZE < sz → parent.entry v = some e →
    ∃ pa, d.entry v = some { e with pa := pa } ∧ k'.mem pa = k.mem e.pa
  absent : ∀ v, v * PGSIZE < sz → parent.entry v = none → d.entry v = none
  others : ∀ v, v < UPAGES → sz ≤ v * PGSIZE → d.entry v = none
  fresh : ∀ v e, v < UPAGES → d.entry v = some e → e.pa ∈ k.freelist ∧ e.pa ∉ k'.freelist
  private_ : ∀ v w e f, v < UPAGES → w < UPAGES → d.entry v = some e → f.pa = e.pa →
    parent.entry w ≠ some f ∧ (d.entry w = some f → w = v)
  kernel : ∃ d₀ k₀, setupkvm k = .ok (some d₀, k₀) ∧ ∀ v, UPAGES ≤ v → d.entry v = d₀.entry v
  memory : ∀ pa, pa ∉ k.freelist → k'.mem pa = k.mem pa
  parent_ : ∀ pa, 0 < parent.count pa → k'.mem pa = k.mem pa

section Copy
variable {parent d : PgDir} {k k' : Kmem} {sz : Nat}

theorem PgDir.count_two {v w : Nat} {e f : Pte} (user : v < UPAGES) (user' : w < UPAGES)
    (there : d.entry v = some e) (there' : d.entry w = some f) (ne : w ≠ v) (same : f.pa = e.pa) :
    2 ≤ d.count e.pa := by
  have first := PgDir.count_unmap user there e.pa
  rw [if_pos rfl] at first
  have kept : (d.set v none).entry w = some f := by
    rw [d.entry_set_ne none ne]
    exact there'
  have second := PgDir.count_entry user' kept
  rw [same] at second
  omega

theorem copyuvm_steps (done : copyuvm parent k sz = .ok (some d, k')) :
    ∃ d₀ k₀, setupkvm k = .ok (some d₀, k₀) ∧
      copyuvmLoop parent (NPAGES + 1) ⟨d₀, k₀⟩ 0 sz = .ok (true, ⟨d, k'⟩) := by
  obtain ⟨⟨d₀, k₀⟩, setup, rest⟩ := bind_ok.mp done
  cases d₀ with
  | none => cases rest
  | some d₀ =>
    obtain ⟨⟨ok, u⟩, loop, rest⟩ := bind_ok.mp rest
    dsimp only at rest
    split at rest
    · rename_i yes
      subst yes
      cases rest
      exact ⟨d₀, k₀, setup, loop⟩
    · obtain ⟨k₁, -, eq⟩ := bind_ok.mp rest
      cases eq

end Copy

/-- For every parent whose pages are its own: what copyuvm returns is a private copy. Where
sz reaches into the kernel's half, which every directory has, it does not return. -/
theorem copyuvm_private {parent d : PgDir} {k k' : Kmem} {sz : Nat} (data : k.kdata.1 % PGSIZE = 0)
    (sole : (⟨parent, k⟩ : Uvm).Sole) (legal : KERNBASE < sz → (parent.entry UPAGES).isSome)
    (done : copyuvm parent k sz = .ok (some d, k')) : PrivateCopy parent d k k' sz := by
  obtain ⟨d₀, k₀, setup, loop⟩ := copyuvm_steps done
  cases setupkvm_kvmMade data setup with
  | some _ _ user kernel count _ _ mem =>
    have once : ∀ x, parent.count x + k.freelist.count x ≤ 1 := sole
    have listed : ∀ x, k₀.freelist.count x ≤ k.freelist.count x := fun x => by
      rw [← count x]
      exact Nat.le_add_left _ _
    have listed' : ∀ x, x ∈ k₀.freelist → x ∈ k.freelist := fun x free =>
      List.count_pos_iff.mp ((List.count_pos_iff.mpr free).trans_le (listed x))
    have nodup : k₀.freelist.Nodup := List.nodup_iff_count_le_one.mpr fun x => by
      have := once x
      have := listed x
      omega
    have owned : ∀ x, 0 < parent.count x → x ∉ k.freelist := fun x pos free => by
      have := once x
      have := List.count_pos_iff.mpr free
      omega
    have half : (d₀.entry UPAGES).isSome := kernel UPAGES (by decide)
    obtain ⟨small, copied⟩ := copyuvmLoop_pages (.start parent ⟨d₀, k₀⟩) nodup user half
      (fun v e low there free => owned _ (PgDir.count_entry low there) (listed' _ free)) legal
        (Nat.zero_le _)
      (Nat.zero_le _) (by rw [Nat.zero_mul]; exact loop)
    have pages := endPage_le small
    have moved : ∀ x, d.count x + k'.freelist.count x ≤ k.freelist.count x := fun x => by
      have moves : Moves _ True _ _ :=
          (copyuvmLoop_copies (by decide) (Nat.zero_le _) legal half loop).moves
      rw [← count x]
      exact moves.count_le x
    have memory : ∀ pa, pa ∉ k.freelist → k'.mem pa = k.mem pa := fun pa out =>
      (copied.mem pa fun free => out (listed' pa free)).trans (mem pa out)
    have taken : ∀ v e, v < UPAGES → d.entry v = .some e → 0 < d.count e.pa ∧
        d.count e.pa + k'.freelist.count e.pa ≤ 1 ∧
        0 < k.freelist.count e.pa ∧ parent.count e.pa = 0 := fun v e low there => by
      have pos := PgDir.count_entry low there
      have := moved e.pa
      have := once e.pa
      omega
    constructor
    · exact small
    · intro v e less there
      have inside := below_endPage.mp less
      obtain ⟨pa, -, -, here, bytes⟩ := copied.page v e inside there
      refine ⟨pa, here, bytes.trans (mem e.pa (owned _ (PgDir.count_entry ?_ there)))⟩
      omega
    · intro v less none
      have inside := below_endPage.mp less
      exact (copied.others v (.inr none)).trans (user v (by omega))
    · intro v low above
      refine (copied.others v (.inl ?_)).trans (user v low)
      by_contra inside
      exact absurd (below_endPage.mpr (show v < endPage sz by omega)) (by omega)
    · intro v e low there
      obtain ⟨pos, le, free, -⟩ := taken v e low there
      exact ⟨List.count_pos_iff.mp free, fun back => by
        have := List.count_pos_iff.mpr back
        omega⟩
    · intro v w e f low low' there same
      obtain ⟨-, le, -, none⟩ := taken v e low there
      constructor
      · intro parents
        have := PgDir.count_entry low' parents
        rw [same] at this
        omega
      · intro there'
        by_contra ne
        have := PgDir.count_two low low' there there' ne same
        omega
    · exact ⟨d₀, k₀, setup, fun v high => copied.others v (.inl (by omega))⟩
    · exact memory
    · exact fun pa pos => memory pa (owned pa pos)

/-- The copy of a directory with one page. -/
theorem copyuvm_private_onePageDir : ∃ d k', copyuvm onePageDir loader.kmem PGSIZE =
    .ok (some d, k') ∧ PrivateCopy onePageDir d loader.kmem k' PGSIZE := by
  obtain ⟨d, k', done, -⟩ :=
    copyuvm_one loader_legal (by decide) (show (onePageDir.entry 0).isSome by decide)
  exact ⟨d, k', done, copyuvm_private (by decide) (scarce_sole 80)
    (fun high => absurd high (by decide)) done⟩

end MmapXv6
