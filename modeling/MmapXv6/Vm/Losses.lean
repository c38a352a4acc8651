import MmapXv6.Vm.Kvm

/-! What becomes of the pages of a growth or a copy that fails. A page is lost where the
free list holds exactly one page and the next page to be mapped needs a page table: the
page is taken for the data, and nothing remembers it when no table can be had. -/
namespace MmapXv6

open Lib (bind_ok fibre)
open Function
open Relation (ReflTransGen)

variable {k : Kmem} {mem n : Nat} {ok : Bool}

def pagesTo (a newsz : Nat) : Nat := (newsz - a + (PGSIZE - 1)) / PGSIZE

/-- Whether the growth by some pages from a takes the last free page for data that then
has no page table, given the tables that are there and the length of the free list. -/
def starves (has : Nat → Bool) : Nat → Nat → Nat → Bool
  | 0, _, _ => false
  | n + 1, a, free =>
    if free = 0 then false
    else if has (PDX a) = false ∧ free = 1 then true
    else starves (update has (PDX a) true) n (a + PGSIZE)
      (free - 1 - if has (PDX a) then 0 else 1)

def Uvm.starves (u : Uvm) (a newsz : Nat) : Bool :=
  MmapXv6.starves u.pgdir.has (pagesTo a newsz) a u.kmem.freelist.length

section Hands
variable {k k' : Kmem} {page : Nat}

theorem Kmem.Hands.mem_list (h : k.Hands k' page) : page ∈ k.freelist :=
  h.list.symm.subset List.mem_cons_self

theorem Kmem.Hands.subset (h : k.Hands k' page) : k'.freelist ⊆ k.freelist :=
  fun _ mem => h.list.symm.subset (List.mem_cons_of_mem _ mem)

theorem Kmem.Hands.count_lt (h : k.Hands k' page) (d : PgDir) :
    (⟨d, k'⟩ : Uvm).count page < (⟨d, k⟩ : Uvm).count page := by
  have lost := h.count page
  rw [if_pos rfl] at lost
  unfold Uvm.count
  dsimp only
  omega

end Hands

section Alloc
variable {u w : Uvm} {a oldsz newsz r : Nat} {leak stray : Prop}

theorem pagesTo_next (below : a < newsz) : pagesTo a newsz = pagesTo (a + PGSIZE) newsz + 1 := by
  unfold pagesTo
  simp only [PGSIZE]
  omega

theorem pagesTo_none (above : newsz ≤ a) : pagesTo a newsz = 0 := by
  unfold pagesTo
  simp only [PGSIZE]
  omega

theorem PgDir.tableNeed_has (d : PgDir) (va : Nat) :
    d.tableNeed va = if d.has (PDX va) then 0 else 1 := rfl

theorem Maps.starves_eq (below : a < newsz)
    (taken : u.kmem.kalloc = some (mem, k))
    (has : w.pgdir.has = update u.pgdir.has (PDX a) true)
    (free : k.freelist.length = w.kmem.freelist.length + u.pgdir.tableNeed a) :
    w.starves (a + PGSIZE) newsz = u.starves a newsz := by
  have list : u.kmem.freelist.length = k.freelist.length + 1 := by
    rw [(kalloc_some taken).1, List.length_cons]
  rw [PgDir.tableNeed_has] at free
  unfold Uvm.starves
  rw [pagesTo_next below, MmapXv6.starves, if_neg (by omega), has]
  split
  · rename_i last
    rw [last.1] at free
    simp only [Bool.false_eq_true, if_false] at free
    omega
  · congr 1
    omega

theorem starves_last (below : a < newsz) (taken : u.kmem.kalloc = some (mem, k))
    (empty : k.freelist = []) (absent : u.pgdir.tab (PDX a) = none) : u.starves a newsz = true := by
  have list : u.kmem.freelist.length = 1 := by
    rw [(kalloc_some taken).1, empty]
    rfl
  unfold Uvm.starves
  rw [pagesTo_next below, MmapXv6.starves, if_neg (by omega),
    if_pos ⟨by simp [PgDir.has, absent], list⟩]

theorem starves_empty (empty : u.kmem.freelist = []) : u.starves a newsz = false := by
  unfold Uvm.starves
  rw [empty]
  cases pagesTo a newsz <;> rfl

theorem Allocs.moves (h : Allocs oldsz newsz u a r w) (low : newsz < KERNBASE) :
    Moves (u.starves a newsz = true) stray u w := by
  induction h with
  | stop _ => exact .refl
  | fail _ _ freed => exact deallocuvm_moves (Nat.le_of_lt low) freed
  | page aligned below taken mapped _ _ later =>
    have hands := kalloc_hands taken fun _ => 0
    cases mappages_maps aligned (below.trans low) hands mapped with
    | done moves has free sub _ _ =>
      rw [Maps.starves_eq below taken has free] at later
      exact (moves _ _).trans later
    | none eq empty absent =>
      subst eq
      have yes := starves_last below taken empty absent
      exact .head (.lose yes hands) (later.mono (fun _ => yes) id)

theorem allocuvm_moves (done : allocuvm u oldsz newsz = .ok (r, w)) :
    Moves (newsz < KERNBASE ∧ u.starves (PGROUNDUP oldsz) newsz = true) stray u w := by
  rcases allocuvm_cases done with ⟨-, -, rfl⟩ | ⟨-, -, rfl⟩ | ⟨-, low, loop⟩
  · exact .refl
  · exact .refl
  · exact (loop.moves low).mono (fun yes => ⟨low, yes⟩) id

theorem Allocs.has {i : Nat} (h : Allocs oldsz newsz u a r w) (low : newsz < KERNBASE)
    (beyond : newsz ≤ i * (NPTENTRIES * PGSIZE)) (served : r ≠ 0) :
    w.pgdir.has i = u.pgdir.has i := by
  induction h with
  | stop _ => rfl
  | fail _ _ _ => exact absurd rfl served
  | page aligned below taken mapped _ _ ih =>
    rw [ih served]
    cases mappages_maps aligned (below.trans low) (kalloc_hands taken fun _ => 0) mapped with
    | done _ has _ _ _ _ =>
      rw [has, update_of_ne]
      unfold PDX
      simp only [PGSIZE, NPTENTRIES] at beyond ⊢
      omega
    | none eq _ _ => rw [eq]

theorem allocuvm_has {i : Nat} (beyond : newsz ≤ i * (NPTENTRIES * PGSIZE))
    (done : allocuvm u oldsz newsz = .ok (r, w)) (served : r ≠ 0) :
    w.pgdir.has i = u.pgdir.has i := by
  rcases allocuvm_cases done with ⟨-, zero, -⟩ | ⟨-, -, rfl⟩ | ⟨-, low, loop⟩
  · exact absurd zero served
  · rfl
  · exact loop.has low beyond served

theorem Allocs.lost (h : Allocs oldsz newsz u a r w) (low : newsz < KERNBASE)
    (starved : u.starves a newsz = true) : ∃ x ∈ u.kmem.freelist, w.count x < u.count x := by
  induction h with
  | stop above =>
    unfold Uvm.starves at starved
    rw [pagesTo_none above] at starved
    cases starved
  | fail _ empty _ =>
    rw [starves_empty empty] at starved
    cases starved
  | @page u v w a mem r k q aligned below taken mapped _ rest ih =>
    have hands := kalloc_hands taken fun _ => 0
    cases mappages_maps aligned (below.trans low) hands mapped with
    | done moves has free sub _ _ =>
      rw [← Maps.starves_eq below taken has free] at starved
      obtain ⟨x, mem, less⟩ := ih starved
      have before := (moves False False).count_eq x
      exact ⟨x, hands.subset (sub mem), by omega⟩
    | none eq empty absent =>
      subst eq
      refine ⟨mem, hands.mem_list, ?_⟩
      have lost := hands.count_lt u.pgdir
      have later : Moves _ False _ w := rest.moves low
      exact lt_of_le_of_lt (later.count_le mem) lost

end Alloc

/-- The same for the copy of some virtual pages from v on, of which only those that the
parent has are copied. -/
def copyStarves (parent : PgDir) (has : Nat → Bool) : Nat → Nat → Nat → Bool
  | 0, _, _ => false
  | n + 1, v, free =>
    if (parent.entry v).isNone then copyStarves parent has n (v + 1) free
    else if free = 0 then false
    else if has (v / NPTENTRIES) = false ∧ free = 1 then true
    else copyStarves parent (update has (v / NPTENTRIES) true) n (v + 1)
      (free - 1 - if has (v / NPTENTRIES) then 0 else 1)

section Copy
variable {parent : PgDir} {u w : Uvm} {i sz : Nat} {leak stray : Prop}

def Uvm.copyStarves (u : Uvm) (parent : PgDir) (i sz : Nat) : Bool :=
  MmapXv6.copyStarves parent u.pgdir.has (pagesTo i sz) (i / PGSIZE) u.kmem.freelist.length

/-- The passes of the loop of copyuvm, up to the kernel's half. -/
inductive Copies (parent : PgDir) (sz : Nat) : Uvm → Nat → Bool → Uvm → Prop where
  | stop {u : Uvm} {i : Nat} : sz ≤ i → Copies parent sz u i true u
  | skip {u w : Uvm} {i : Nat} {ok : Bool} : i < sz → parent.entry (i / PGSIZE) = none →
      Copies parent sz u (i + PGSIZE) ok w → Copies parent sz u i ok w
  | full {u : Uvm} {i : Nat} : i < sz → (parent.entry (i / PGSIZE)).isSome →
      u.kmem.freelist = [] → Copies parent sz u i false u
  | starve {u : Uvm} {i mem : Nat} {k : Kmem} : i < sz → (parent.entry (i / PGSIZE)).isSome →
      u.kmem.Hands k mem → k.freelist = [] → u.pgdir.tab (PDX i) = none →
      Copies parent sz u i false ⟨u.pgdir, k⟩
  | page {u v w : Uvm} {i mem : Nat} {k : Kmem} {ok : Bool} : i < sz →
      (parent.entry (i / PGSIZE)).isSome → u.kmem.Hands k mem → Maps u k i v 0 →
      Copies parent sz v (i + PGSIZE) ok w → Copies parent sz u i ok w

theorem mappages_remap {e : Pte} (aligned : i % PGSIZE = 0) (word : i + PGSIZE ≤ 2 ^ 32)
    (there : (u.pgdir.entry (i / PGSIZE)).isSome) : mappages u i PGSIZE e = .error .remap := by
  obtain ⟨f, entry⟩ := Option.isSome_iff_exists.mp there
  have table : (u.pgdir.tab (PDX i)).isSome := PgDir.table_of_entry entry
  rw [mappages_unfold u e aligned word]
  obtain ⟨page, tab⟩ := Option.isSome_iff_exists.mp table
  have walked : walkpgdir u i true = some u := by
    unfold walkpgdir
    rw [tab]
  rw [u.pgdir.entry_of_table table] at entry
  rw [walked]
  simp [entry]

theorem copyuvmLoop_high (high : KERNBASE < sz)
    (there : (parent.entry UPAGES).isSome) (kernel : (u.pgdir.entry UPAGES).isSome)
    (done : copyuvmLoop parent (n + 1) u KERNBASE sz = .ok (ok, w)) :
      ok = false ∧ w = u ∧ u.kmem.freelist = [] := by
  obtain ⟨e, entry⟩ := Option.isSome_iff_exists.mp there
  have table : (parent.tab (PDX KERNBASE)).isSome := PgDir.table_of_entry entry
  have pte : parent.pte (KERNBASE / PGSIZE) = some e := by
    rw [← parent.entry_of_table table]
    exact entry
  rw [copyuvmLoop, if_pos high,
    if_neg (by simpa [Option.isSome_iff_ne_none] using table), pte] at done
  cases taken : u.kmem.kalloc with
  | none =>
    rw [taken] at done
    cases done
    exact ⟨rfl, rfl, kalloc_none taken⟩
  | some q =>
    obtain ⟨mem, k⟩ := q
    rw [taken] at done
    obtain ⟨⟨r, v⟩, mapped, -⟩ := bind_ok.mp done
    cases mapped.symm.trans (mappages_remap (by decide) (by decide) kernel)

theorem copyuvmLoop_kernel (high : KERNBASE < sz)
    (there : (parent.entry UPAGES).isSome) (kernel : (u.pgdir.entry UPAGES).isSome)
    (done : copyuvmLoop parent (n + 1) u KERNBASE sz = .ok (ok, w)) :
      Copies parent sz u KERNBASE ok w := by
  obtain ⟨rfl, rfl, empty⟩ := copyuvmLoop_high high there kernel done
  exact .full high there empty

theorem copyuvmLoop_copies (aligned : i % PGSIZE = 0) (start : i ≤ KERNBASE)
    (legal : KERNBASE < sz → (parent.entry UPAGES).isSome) (kernel : (u.pgdir.entry UPAGES).isSome)
    (done : copyuvmLoop parent n u i sz = .ok (ok, w)) : Copies parent sz u i ok w := by
  induction n generalizing u i with
  | zero => cases done
  | succ n ih =>
    by_cases low : i < KERNBASE
    · unfold copyuvmLoop at done
      split at done
      · rename_i below
        rw [word_next low (Nat.le_refl _)] at done
        have start' : i + PGSIZE ≤ KERNBASE := by
          simp only [PGSIZE, KERNBASE] at aligned low ⊢
          omega
        split at done
        · cases done
        · rename_i table
          have there : (parent.tab (PDX i)).isSome := by
            simpa [Option.isSome_iff_ne_none] using table
          have same := parent.entry_of_table (v := i / PGSIZE) there
          split at done
          · rename_i none
            exact .skip below (same.trans none) (ih (page_next aligned) start' kernel done)
          · rename_i e some
            have present : (parent.entry (i / PGSIZE)).isSome := by rw [same, some]; rfl
            split at done
            · rename_i none
              cases done
              exact .full below present (kalloc_none none)
            · rename_i mem k taken
              obtain ⟨⟨r, v⟩, mapped, rest⟩ := bind_ok.mp done
              have hands := kalloc_hands taken (k.mem e.pa)
              have maps := mappages_maps (e := { e with pa := mem }) aligned low hands mapped
              dsimp only at rest
              cases maps with
              | done moves has free sub here others =>
                rw [if_neg (by decide)] at rest
                refine .page below present hands (.done moves has free sub here others)
                  (ih (page_next aligned) start' ?_ rest)
                rw [others UPAGES (Nat.ne_of_gt (user_page low))]
                exact kernel
              | none eq empty absent =>
                rw [if_pos (by decide)] at rest
                cases rest
                subst eq
                exact .starve below present hands empty absent
      · cases done
        exact .stop (by omega)
    · obtain rfl : i = KERNBASE := by omega
      by_cases high : KERNBASE < sz
      · exact copyuvmLoop_kernel high (legal high) kernel done
      · rw [copyuvmLoop, if_neg high] at done
        cases done
        exact .stop (by omega)

theorem copyStarves_skip (below : i < sz) (absent : parent.entry (i / PGSIZE) = none) :
    u.copyStarves parent (i + PGSIZE) sz = u.copyStarves parent i sz := by
  have page : (i + PGSIZE) / PGSIZE = i / PGSIZE + 1 := Nat.add_div_right _ (by decide)
  unfold Uvm.copyStarves
  rw [pagesTo_next below, MmapXv6.copyStarves, page]
  simp [absent]

theorem copyStarves_full (below : i < sz) (present : (parent.entry (i / PGSIZE)).isSome)
    (empty : u.kmem.freelist = []) : u.copyStarves parent i sz = false := by
  obtain ⟨e, entry⟩ := Option.isSome_iff_exists.mp present
  unfold Uvm.copyStarves
  rw [pagesTo_next below, MmapXv6.copyStarves]
  simp [entry, empty]

theorem copyStarves_last (below : i < sz)
    (present : (parent.entry (i / PGSIZE)).isSome) (hands : u.kmem.Hands k mem)
    (empty : k.freelist = []) (absent : u.pgdir.tab (PDX i) = none) :
    u.copyStarves parent i sz = true := by
  obtain ⟨e, entry⟩ := Option.isSome_iff_exists.mp present
  have list : u.kmem.freelist.length = 1 := by
    rw [hands.list.length_eq, empty]
    rfl
  have has : u.pgdir.has (i / PGSIZE / NPTENTRIES) = false := by
    change u.pgdir.has (PDX i) = false
    simp [PgDir.has, absent]
  unfold Uvm.copyStarves
  rw [pagesTo_next below, MmapXv6.copyStarves]
  simp [entry, list, has]

theorem copyStarves_page (below : i < sz)
    (present : (parent.entry (i / PGSIZE)).isSome) (hands : u.kmem.Hands k mem)
    (has : w.pgdir.has = update u.pgdir.has (PDX i) true)
    (free : k.freelist.length = w.kmem.freelist.length + u.pgdir.tableNeed i) :
    w.copyStarves parent (i + PGSIZE) sz = u.copyStarves parent i sz := by
  obtain ⟨e, entry⟩ := Option.isSome_iff_exists.mp present
  have page : (i + PGSIZE) / PGSIZE = i / PGSIZE + 1 := Nat.add_div_right _ (by decide)
  have list : u.kmem.freelist.length = k.freelist.length + 1 := by
    rw [hands.list.length_eq, List.length_cons]
  rw [PgDir.tableNeed_has] at free
  unfold Uvm.copyStarves
  rw [pagesTo_next below, MmapXv6.copyStarves, entry, if_neg (by simp),
    if_neg (by omega), has, page]
  have index : i / PGSIZE / NPTENTRIES = PDX i := rfl
  have more : ¬(u.pgdir.has (PDX i) = false ∧ u.kmem.freelist.length = 1) := by
    rintro ⟨absent, one⟩
    rw [absent] at free
    simp only [Bool.false_eq_true, if_false] at free
    omega
  rw [index, if_neg more]
  congr 1
  omega

theorem Copies.moves (h : Copies parent sz u i ok w) :
    Moves (u.copyStarves parent i sz = true) stray u w := by
  induction h with
  | stop _ => exact .refl
  | skip below absent _ ih =>
    rw [← copyStarves_skip below absent]
    exact ih
  | full => exact .refl
  | starve below present hands empty absent =>
    exact .single (.lose (copyStarves_last below present hands empty absent) hands)
  | page below present hands maps _ ih =>
    cases maps with
    | done moves has free sub _ _ =>
      rw [copyStarves_page below present hands has free] at ih
      exact (moves _ _).trans ih

theorem Copies.lost (h : Copies parent sz u i ok w)
    (starved : u.copyStarves parent i sz = true) :
    ∃ x ∈ u.kmem.freelist, w.count x < u.count x := by
  induction h with
  | stop above =>
    unfold Uvm.copyStarves at starved
    rw [pagesTo_none above] at starved
    cases starved
  | skip below absent _ ih =>
    rw [← copyStarves_skip below absent] at starved
    exact ih starved
  | full below present empty =>
    rw [copyStarves_full below present empty] at starved
    cases starved
  | starve below present hands empty absent =>
    exact ⟨_, hands.mem_list, hands.count_lt _⟩
  | page below present hands maps rest ih =>
    cases maps with
    | done moves has free sub _ _ =>
      rw [← copyStarves_page below present hands has free] at starved
      obtain ⟨x, mem, less⟩ := ih starved
      have before := (moves False False).count_eq x
      exact ⟨x, hands.subset (sub mem), by omega⟩

end Copy

end MmapXv6
