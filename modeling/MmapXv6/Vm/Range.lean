import MmapXv6.Vm.Pages
import MmapXv6.Lib.Frames

/-! What each page operation does to the entries and to the free pages. An operation
on a range leaves the entries outside it alone. Allocation only writes to pages that
were free, and deallocation leaves no page behind where the first page table exists. -/
namespace MmapXv6

open Lib (bind_ok)
open Function (update update_of_ne update_self)

variable {a hi lo n pa sz v va : Nat} {d : PgDir} {e : Pte} {k k' : Kmem} {r : Int} {u u' : Uvm}

theorem PGROUNDUP_eq (h : sz + 4095 < 2 ^ 32) :
    PGROUNDUP sz = (sz + 4095) / 4096 * 4096 := by
  unfold PGROUNDUP
  simp only [PGSIZE]
  omega

theorem PGROUNDUP_mod (sz : Nat) : PGROUNDUP sz % PGSIZE = 0 := by
  exact Nat.mul_mod_left _ _

theorem PGROUNDUP_aligned (aligned : a % PGSIZE = 0) (low : a ≤ KERNBASE) :
    PGROUNDUP a = a := by
  unfold PGROUNDUP
  simp only [PGSIZE, KERNBASE] at aligned low ⊢
  omega

theorem page_next (aligned : a % PGSIZE = 0) : (a + PGSIZE) % PGSIZE = 0 := by
  rw [Nat.add_mod_right, aligned]

theorem table_next (aligned : a % PGSIZE = 0) :
    (a + NPTENTRIES * PGSIZE) % PGSIZE = 0 := by
  rw [Nat.add_mul_mod_self_right, aligned]

theorem word_next (below : a < hi) (low : hi ≤ KERNBASE) :
    (a + PGSIZE) % 2 ^ 32 = a + PGSIZE := by
  simp only [PGSIZE, KERNBASE] at low ⊢
  omega

namespace PgDir

theorem entry_set_ne (d : PgDir) {w : Nat} (e : Option Pte) (h : w ≠ v) :
    (d.set v e).entry w = d.entry w := by
  simp [PgDir.entry, PgDir.set, h]

theorem entry_set (d : PgDir) (e : Option Pte)
    (table : (d.tab (v / NPTENTRIES)).isSome) :
    (d.set v e).entry = update d.entry v e := by
  funext w
  by_cases h : w = v
  · subst h
    simp [PgDir.entry, PgDir.set, table]
  · rw [entry_set_ne d e h, update_of_ne h]

theorem entry_addTable (d : PgDir) {i : Nat} (pgtab : Nat) (absent : d.tab i = none) :
    (d.addTable i pgtab).entry = d.entry := by
  funext w
  by_cases h : w / NPTENTRIES = i
  · subst h
    simp [PgDir.entry, PgDir.addTable, absent]
  · simp [PgDir.entry, PgDir.addTable, h]

theorem entry_of_table (d : PgDir) (table : (d.tab (v / NPTENTRIES)).isSome) :
    d.entry v = d.pte v := by
  simp [PgDir.entry, table]

theorem entry_of_absent (d : PgDir) (absent : d.tab (v / NPTENTRIES) = none) :
    d.entry v = none := by
  simp [PgDir.entry, absent]

theorem table_of_entry (h : d.entry v = some e) :
    (d.tab (v / NPTENTRIES)).isSome := by
  unfold PgDir.entry at h
  split at h
  · assumption
  · cases h

end PgDir

/-- The effect of allocation: pages leave the front of the free list, and only pages
that were free change. -/
structure Kmem.Takes (k k' : Kmem) : Prop where
  suffix : k'.freelist <:+ k.freelist
  mem : ∀ f, f ∉ k.freelist → k'.mem f = k.mem f

theorem Kmem.Takes.refl (k : Kmem) : k.Takes k := ⟨List.suffix_refl _, fun _ _ => rfl⟩

theorem Kmem.Takes.trans {k'' : Kmem} (h : k.Takes k') (h' : k'.Takes k'') :
    k.Takes k'' where
  suffix := h'.suffix.trans h.suffix
  mem := fun f free => (h'.mem f fun mem => free (h.suffix.subset mem)).trans (h.mem f free)

theorem kalloc_none (h : k.kalloc = none) : k.freelist = [] := by
  unfold Kmem.kalloc at h
  split at h
  · assumption
  · cases h

theorem kalloc_some (h : k.kalloc = some (pa, k')) :
    k.freelist = pa :: k'.freelist ∧ k'.mem = k.mem := by
  unfold Kmem.kalloc at h
  split at h
  · cases h
  · rename_i r next hk
    cases h
    exact ⟨hk, rfl⟩

theorem kalloc_takes (h : k.kalloc = some (pa, k'))
    (page : Lib.Bytes) : k.Takes { k' with mem := update k'.mem pa page } := by
  obtain ⟨list, mem⟩ := kalloc_some h
  constructor
  · rw [list]
    exact List.suffix_cons pa k'.freelist
  · intro f free
    have ne : f ≠ pa := fun e => free (by rw [list, e]; exact List.mem_cons_self)
    change update k'.mem pa page f = k.mem f
    rw [update_of_ne ne, mem]

structure Walked (u u' : Uvm) (va : Nat) : Prop where
  entry : u'.pgdir.entry = u.pgdir.entry
  table : (u'.pgdir.tab (PDX va)).isSome
  tables : ∀ i, (u.pgdir.tab i).isSome → (u'.pgdir.tab i).isSome
  takes : u.kmem.Takes u'.kmem

theorem walkpgdir_some {alloc : Bool}
    (walked : walkpgdir u va alloc = some u') : Walked u u' va := by
  unfold walkpgdir at walked
  split at walked
  · rename_i page table
    cases walked
    exact ⟨rfl, by rw [table]; rfl, fun _ h => h, .refl _⟩
  · rename_i absent
    split at walked
    · split at walked
      · cases walked
      · rename_i pgtab k taken
        cases walked
        refine ⟨u.pgdir.entry_addTable pgtab absent, ?_, ?_, kalloc_takes taken _⟩
        · simp [PgDir.addTable]
        · intro i h
          by_cases e : i = PDX va
          · simp [PgDir.addTable, e]
          · simpa [PgDir.addTable, e] using h
    · cases walked

theorem walkpgdir_none (walked : walkpgdir u va true = none) :
    u.pgdir.tab (PDX va) = none ∧ u.kmem.freelist = [] := by
  unfold walkpgdir at walked
  split at walked
  · cases walked
  · rename_i absent
    rw [if_pos rfl] at walked
    split at walked
    · exact ⟨absent, kalloc_none ‹_›⟩
    · cases walked

theorem walkpgdir_noalloc (u : Uvm) (va : Nat) :
    walkpgdir u va false = if (u.pgdir.tab (PDX va)).isSome then some u else none := by
  unfold walkpgdir
  split
  · rename_i h
    simp [h]
  · rename_i h
    simp [h]

inductive Mapped (u u' : Uvm) (a : Nat) (e : Pte) : Int → Prop where
  | none : u' = u → u.kmem.freelist = [] → u.pgdir.entry (a / PGSIZE) = .none →
      Mapped u u' a e (-1)
  | page : u.pgdir.entry (a / PGSIZE) = none →
      u'.pgdir.entry = update u.pgdir.entry (a / PGSIZE) (some e) →
      (u'.pgdir.tab (PDX a)).isSome →
      (∀ i, (u.pgdir.tab i).isSome → (u'.pgdir.tab i).isSome) →
      u.kmem.Takes u'.kmem → Mapped u u' a e 0

theorem mappages_unfold (u : Uvm) (e : Pte) (aligned : a % PGSIZE = 0)
    (low : a + PGSIZE ≤ 2 ^ 32) :
    mappages u a PGSIZE e = match walkpgdir u a true with
      | none => .ok (-1, u)
      | some u => if (u.pgdir.pte (a / PGSIZE)).isSome then .error .remap
          else .ok (0, { u with pgdir := u.pgdir.set (a / PGSIZE) (some e) }) := by
  have first : PGROUNDDOWN a = a := by
    unfold PGROUNDDOWN
    simp only [PGSIZE] at aligned ⊢
    omega
  have final : PGROUNDDOWN ((a + PGSIZE - 1) % 2 ^ 32) = a := by
    unfold PGROUNDDOWN
    simp only [PGSIZE] at aligned low ⊢
    omega
  unfold mappages
  rw [first, final]
  unfold mappagesLoop
  cases walkpgdir u a true with
  | none => rfl
  | some u => simp

theorem mappages_page (aligned : a % PGSIZE = 0)
    (low : a + PGSIZE ≤ 2 ^ 32) (mapped : mappages u a PGSIZE e = .ok (r, u')) :
    Mapped u u' a e r := by
  rw [mappages_unfold u e aligned low] at mapped
  split at mapped
  · cases mapped
    obtain ⟨absent, empty⟩ := walkpgdir_none ‹_›
    exact .none rfl empty (u.pgdir.entry_of_absent absent)
  · rename_i w walked
    obtain ⟨entry, table, tables, takes⟩ := walkpgdir_some walked
    split at mapped
    · cases mapped
    · rename_i free
      cases mapped
      have there : w.pgdir.entry (a / PGSIZE) = none := by
        rw [w.pgdir.entry_of_table table]
        simpa using free
      refine .page (by rw [← entry]; exact there) ?_ table tables takes
      rw [← entry]
      exact w.pgdir.entry_set (some e) table

theorem mappages_ok (e : Pte) (aligned : a % PGSIZE = 0)
    (low : a + PGSIZE ≤ 2 ^ 32) (free : u.pgdir.entry (a / PGSIZE) = none) :
    ∃ r, mappages u a PGSIZE e = .ok r := by
  rw [mappages_unfold u e aligned low]
  split
  · exact ⟨_, rfl⟩
  · rename_i w walked
    obtain ⟨entry, table, -, -⟩ := walkpgdir_some walked
    rw [← entry, w.pgdir.entry_of_table table] at free
    rw [free]
    exact ⟨_, rfl⟩

section Dealloc

/-- The passes of the loop of deallocuvm below KERNBASE, where a does not wrap. -/
inductive Deallocs (oldsz : Nat) : Uvm → Nat → Uvm → Prop where
  | stop {u : Uvm} {a : Nat} : oldsz ≤ a → Deallocs oldsz u a u
  | jump {u u' : Uvm} {a : Nat} : a < oldsz → u.pgdir.tab (PDX a) = none →
      Deallocs oldsz u (a + NPTENTRIES * PGSIZE) u' → Deallocs oldsz u a u'
  | pass {u u' : Uvm} {a : Nat} : a < oldsz → (u.pgdir.tab (PDX a)).isSome →
      u.pgdir.entry (a / PGSIZE) = none → Deallocs oldsz u (a + PGSIZE) u' → Deallocs oldsz u a u'
  | free {u u' : Uvm} {a : Nat} {e : Pte} {k : Kmem} : a < oldsz →
      u.pgdir.entry (a / PGSIZE) = some e → u.kmem.kfree e.pa = .ok k →
      Deallocs oldsz ⟨u.pgdir.set (a / PGSIZE) none, k⟩ (a + PGSIZE) u' → Deallocs oldsz u a u'

variable {u u' : Uvm} {a oldsz newsz : Nat}

theorem deallocuvmLoop_deallocs (low : oldsz ≤ KERNBASE)
    (done : deallocuvmLoop n u a oldsz = .ok u') : Deallocs oldsz u a u' := by
  induction n generalizing u a with
  | zero => cases done
  | succ n ih =>
    unfold deallocuvmLoop at done
    split at done
    · rename_i below
      have table : (a + (NPTENTRIES - 1) * PGSIZE + PGSIZE) % 2 ^ 32 =
          a + NPTENTRIES * PGSIZE := by
        simp only [NPTENTRIES, PGSIZE, KERNBASE] at low ⊢
        omega
      rw [word_next below low, table, walkpgdir_noalloc] at done
      split at done
      · rename_i absent
        refine .jump below ?_ (ih done)
        simpa using absent
      · rename_i w walked
        obtain ⟨there, rfl⟩ : (u.pgdir.tab (PDX a)).isSome ∧ u = w := by simpa using walked
        obtain ⟨w, freed, rest⟩ := bind_ok.mp done
        have same : u.pgdir.entry (a / PGSIZE) = u.pgdir.pte (a / PGSIZE) :=
          u.pgdir.entry_of_table there
        unfold deallocPage at freed
        split at freed
        · rename_i none
          cases freed
          exact .pass below there (same.trans none) (ih rest)
        · rename_i e some
          split at freed
          · cases freed
          · obtain ⟨k, ok, eq⟩ := bind_ok.mp freed
            cases eq
            exact .free below (same.trans some) ok (ih rest)
    · cases done
      exact .stop (by omega)

structure Freed (u u' : Uvm) (lo hi : Nat) : Prop where
  tab : u'.pgdir.tab = u.pgdir.tab
  entry : ∀ v, u'.pgdir.entry v = u.pgdir.entry v ∨
    u'.pgdir.entry v = none ∧ lo ≤ v * PGSIZE ∧ v * PGSIZE < hi

theorem Freed.refl (u : Uvm) (lo hi : Nat) : Freed u u lo hi := ⟨rfl, fun _ => .inl rfl⟩

theorem Freed.widen {lo' : Nat} (h : Freed u u' lo' hi) (le : lo ≤ lo') :
    Freed u u' lo hi where
  tab := h.tab
  entry := fun v => (h.entry v).imp id fun gone => ⟨gone.1, by omega, gone.2.2⟩

theorem Freed.entry_some (h : Freed u u' lo hi)
    (there : u'.pgdir.entry v = some e) : u.pgdir.entry v = some e := by
  rcases h.entry v with same | ⟨gone, -⟩
  · rw [← same, there]
  · rw [gone] at there
    cases there

theorem Freed.entry_none (h : Freed u u' lo hi) (none : u.pgdir.entry v = none) :
    u'.pgdir.entry v = .none := by
  rcases h.entry v with same | ⟨gone, -⟩
  · rw [same, none]
  · exact gone

theorem Deallocs.freed (h : Deallocs oldsz u a u') (aligned : a % PGSIZE = 0) :
    Freed u u' a oldsz := by
  induction h with
  | stop _ => exact .refl _ _ _
  | jump _ _ _ ih =>
    exact Freed.widen (ih (table_next aligned)) (Nat.le_add_right _ _)
  | pass _ _ _ _ ih => exact Freed.widen (ih (page_next aligned)) (Nat.le_add_right _ _)
  | @free u u' a e k below there _ _ ih =>
    have rest := Freed.widen (ih (page_next aligned)) (Nat.le_add_right a PGSIZE)
    refine ⟨rest.tab, fun v => ?_⟩
    have first := u.pgdir.entry_set none (PgDir.table_of_entry there)
    by_cases e : v = a / PGSIZE
    · right
      refine ⟨rest.entry_none ?_, ?_⟩
      · rw [first, e, update_self]
      · simp only [PGSIZE] at aligned e ⊢
        omega
    · rcases rest.entry v with same | gone
      · left
        rw [same, first, update_of_ne e]
      · exact .inr gone

theorem table_or_boundary (aligned : a % PGSIZE = 0) (there : (d.tab (PDX a)).isSome) :
    (d.tab (PDX (a + PGSIZE))).isSome ∨ (a + PGSIZE) % (NPTENTRIES * PGSIZE) = 0 := by
  by_cases last : (a + PGSIZE) % (NPTENTRIES * PGSIZE) = 0
  · exact .inr last
  · have same : PDX (a + PGSIZE) = PDX a := by
      unfold PDX
      simp only [PGSIZE, NPTENTRIES] at aligned last ⊢
      omega
    rw [same]
    exact .inl there

/-- The jump over a missing page table loses no page when it starts at a page table
boundary, so a first page with its table suffices for the whole range. -/
theorem Deallocs.empty (h : Deallocs oldsz u a u') (aligned : a % PGSIZE = 0)
    (first : (u.pgdir.tab (PDX a)).isSome ∨ a % (NPTENTRIES * PGSIZE) = 0)
    (low : a ≤ v * PGSIZE) (high : v * PGSIZE < oldsz) : u'.pgdir.entry v = none := by
  have after : ∀ {a : Nat}, a % PGSIZE = 0 → a ≤ v * PGSIZE → v ≠ a / PGSIZE →
      a + PGSIZE ≤ v * PGSIZE := by
    intro a aligned low ne
    simp only [PGSIZE] at aligned low ne ⊢
    omega
  induction h with
  | stop done => exact absurd high (by omega)
  | @jump u u' a below absent rest ih =>
    have start : a % (NPTENTRIES * PGSIZE) = 0 := by
      rcases first with there | start
      · rw [absent] at there
        cases there
      · exact start
    by_cases here : v * PGSIZE < a + NPTENTRIES * PGSIZE
    · -- v is one of the pages of the missing table, so the jump loses nothing
      have index : v / NPTENTRIES = PDX a := by
        unfold PDX
        simp only [PGSIZE, NPTENTRIES] at start low here ⊢
        omega
      apply (rest.freed (table_next aligned)).entry_none
      exact u.pgdir.entry_of_absent (by rw [index]; exact absent)
    · refine ih (table_next aligned) (.inr ?_) (by omega)
      rw [Nat.add_mod_right, start]
  | @pass u u' a below there none rest ih =>
    by_cases here : v = a / PGSIZE
    · exact (rest.freed (page_next aligned)).entry_none (by rw [here, none])
    · exact ih (page_next aligned) (table_or_boundary aligned there) (after aligned low here)
  | @free u u' a e k below there _ rest ih =>
    have table : (u.pgdir.tab (PDX a)).isSome := PgDir.table_of_entry there
    by_cases here : v = a / PGSIZE
    · apply (rest.freed (page_next aligned)).entry_none
      rw [u.pgdir.entry_set none table, here, update_self]
    · exact ih (page_next aligned) (table_or_boundary aligned table) (after aligned low here)

theorem deallocuvm_cases {r : Nat} (low : oldsz ≤ KERNBASE)
    (done : deallocuvm u oldsz newsz = .ok (r, u')) :
    oldsz ≤ newsz ∧ r = oldsz ∧ u' = u ∨
    newsz < oldsz ∧ r = newsz ∧ Deallocs oldsz u (PGROUNDUP newsz) u' := by
  unfold deallocuvm at done
  split at done
  · cases done
    exact .inl ⟨‹_›, rfl, rfl⟩
  · obtain ⟨w, loop, eq⟩ := bind_ok.mp done
    cases eq
    exact .inr ⟨by omega, rfl, deallocuvmLoop_deallocs low loop⟩

theorem deallocuvm_freed {r : Nat} (low : oldsz ≤ KERNBASE)
    (done : deallocuvm u oldsz newsz = .ok (r, u')) : Freed u u' (PGROUNDUP newsz) oldsz := by
  rcases deallocuvm_cases low done with ⟨-, -, rfl⟩ | ⟨-, -, loop⟩
  · exact .refl _ _ _
  · exact loop.freed (PGROUNDUP_mod newsz)

end Dealloc

section Owner

abbrev UPAGES : Nat := KERNBASE / PGSIZE

theorem user_page (low : a < KERNBASE) : a / PGSIZE < UPAGES := by
  simp only [UPAGES, PGSIZE, KERNBASE] at low ⊢
  omega

def PgDir.owner (d : PgDir) (v : Nat) : Option Nat :=
  if v < UPAGES then (d.entry v).map Pte.pa else none

theorem PgDir.owner_some (user : v < UPAGES)
    (there : d.entry v = some e) : d.owner v = some e.pa := by
  simp [PgDir.owner, user, there]

theorem PgDir.owner_set {d' : PgDir} {e : Option Pte} (user : v < UPAGES)
    (entry : d'.entry = update d.entry v e) :
    d'.owner = update d.owner v (e.map Pte.pa) := by
  funext w
  by_cases h : w = v
  · subst h
    simp [PgDir.owner, user, entry]
  · simp [PgDir.owner, entry, h]

/-- No user page shares its physical page with another one or with the free list. -/
abbrev Uvm.Apart (u : Uvm) : Prop := Lib.Exclusive u.pgdir.owner u.kmem.freelist

theorem Uvm.Apart.pa_ne (h : u.Apart) {w : Nat} {f : Pte} (hv : v < UPAGES)
    (hw : w < UPAGES) (he : u.pgdir.entry v = some e) (hf : u.pgdir.entry w = some f)
    (ne : v ≠ w) : e.pa ≠ f.pa := fun same =>
  ne (h.inj (PgDir.owner_some hv he) (by rw [PgDir.owner_some hw hf, same]))

theorem kfree_ok (h : k.kfree pa = .ok k') :
    k'.freelist = pa :: k.freelist ∧ k'.mem = update k.mem pa fun _ => 1 := by
  unfold Kmem.kfree at h
  split at h
  · cases h
  · cases h
    exact ⟨rfl, rfl⟩

theorem Deallocs.memory {oldsz : Nat} (h : Deallocs oldsz u a u')
    (low : oldsz ≤ KERNBASE) (aligned : a % PGSIZE = 0) (apart : u.Apart) :
    u'.Apart ∧ ∀ v e, v < UPAGES → u'.pgdir.entry v = some e →
      u'.kmem.mem e.pa = u.kmem.mem e.pa := by
  induction h with
  | stop _ => exact ⟨apart, fun _ _ _ _ => rfl⟩
  | jump _ _ _ ih => exact ih (table_next aligned) apart
  | pass _ _ _ _ ih => exact ih (page_next aligned) apart
  | @free u u' a e k below there ok rest ih =>
    obtain ⟨list, mem⟩ := kfree_ok ok
    have user : a / PGSIZE < UPAGES := user_page (by omega)
    have entry := u.pgdir.entry_set none (PgDir.table_of_entry there)
    have apart' : Uvm.Apart ⟨u.pgdir.set (a / PGSIZE) none, k⟩ := by
      change Lib.Exclusive (u.pgdir.set (a / PGSIZE) none).owner k.freelist
      rw [PgDir.owner_set user entry, list]
      exact apart.release (PgDir.owner_some user there)
    obtain ⟨final, kept⟩ := ih (page_next aligned) apart'
    refine ⟨final, fun v f hv hf => ?_⟩
    have before := (rest.freed (page_next aligned)).entry_some hf
    have ne : v ≠ a / PGSIZE := by
      rintro rfl
      rw [entry, update_self] at before
      cases before
    rw [entry, update_of_ne ne] at before
    rw [kept v f hv hf]
    rw [mem, update_of_ne (apart.pa_ne hv user before there ne)]

theorem deallocuvm_memory {oldsz newsz r : Nat} (low : oldsz ≤ KERNBASE)
    (apart : u.Apart) (done : deallocuvm u oldsz newsz = .ok (r, u')) :
    u'.Apart ∧ ∀ v e, v < UPAGES → u'.pgdir.entry v = some e →
      u'.kmem.mem e.pa = u.kmem.mem e.pa := by
  rcases deallocuvm_cases low done with ⟨-, -, rfl⟩ | ⟨-, -, loop⟩
  · exact ⟨apart, fun _ _ _ _ => rfl⟩
  · exact loop.memory low (PGROUNDUP_mod newsz) apart

end Owner

section Alloc

/-- The passes of the loop of allocuvm below KERNBASE. -/
inductive Allocs (oldsz newsz : Nat) : Uvm → Nat → Nat → Uvm → Prop where
  | stop {u : Uvm} {a : Nat} : newsz ≤ a → Allocs oldsz newsz u a newsz u
  | fail {u u' : Uvm} {a r : Nat} : a < newsz → u.kmem.freelist = [] →
      deallocuvm u newsz oldsz = .ok (r, u') → Allocs oldsz newsz u a 0 u'
  | page {u w u' : Uvm} {a mem r : Nat} {k : Kmem} {q : Int} : a % PGSIZE = 0 → a < newsz →
      u.kmem.kalloc = some (mem, k) →
      mappages { u with kmem := k.memset mem 0 } a PGSIZE (userPte mem) = .ok (q, w) →
      Mapped { u with kmem := k.memset mem 0 } w a (userPte mem) q →
      Allocs oldsz newsz w (a + PGSIZE) r u' → Allocs oldsz newsz u a r u'

variable {u u' : Uvm} {a oldsz newsz r : Nat}

theorem allocuvmLoop_allocs (low : newsz < KERNBASE) (aligned : a % PGSIZE = 0)
    (done : allocuvmLoop n u a oldsz newsz = .ok (r, u')) : Allocs oldsz newsz u a r u' := by
  induction n generalizing u a with
  | zero => cases done
  | succ n ih =>
    unfold allocuvmLoop at done
    split at done
    · rename_i below
      have page := word_next below (Nat.le_of_lt low)
      have high : a + PGSIZE ≤ 2 ^ 32 := by
        omega
      split at done
      · rename_i none
        obtain ⟨⟨x, w⟩, freed, eq⟩ := bind_ok.mp done
        cases eq
        exact .fail below (kalloc_none none) freed
      · rename_i mem k taken
        obtain ⟨⟨q, w⟩, mapped, rest⟩ := bind_ok.mp done
        rw [page] at rest
        exact .page aligned below taken mapped (mappages_page aligned high mapped)
          (ih (page_next aligned) rest)
    · cases done
      exact .stop (by omega)

theorem Allocs.outside (h : Allocs oldsz newsz u a r u') (low : newsz < KERNBASE)
    (start : PGROUNDUP oldsz ≤ a)
    (out : v * PGSIZE < PGROUNDUP oldsz ∨ newsz ≤ v * PGSIZE) :
    u'.pgdir.entry v = u.pgdir.entry v := by
  induction h with
  | stop _ => rfl
  | fail _ _ freed =>
    rcases (deallocuvm_freed (Nat.le_of_lt low) freed).entry v with same | ⟨-, inside⟩
    · exact same
    · exact absurd inside (by omega)
  | @page u w u' a mem r k q aligned below _ _ mapped _ ih =>
    have other : w.pgdir.entry v = u.pgdir.entry v := by
      cases mapped with
      | none same _ _ => rw [same]
      | page _ entry _ _ _ =>
        rw [entry, update_of_ne]
        simp only [PGSIZE] at out aligned ⊢
        omega
    rw [ih (by omega), other]

/-- A growth that fails leaves no page of the range behind. Either the first page
was mapped, and deallocuvm starts at a page table that exists, or the free list was
empty from then on and nothing was mapped. -/
theorem Allocs.failed (h : Allocs oldsz newsz u a 0 u') (low : newsz < KERNBASE)
    (start : PGROUNDUP oldsz ≤ a) (fits : oldsz + 4095 < 2 ^ 32)
    (before : (u.pgdir.tab (PDX (PGROUNDUP oldsz))).isSome ∨
      (a = PGROUNDUP oldsz ∨ u.kmem.freelist = []) ∧
      ∀ v, PGROUNDUP oldsz ≤ v * PGSIZE → v * PGSIZE < newsz → u.pgdir.entry v = none)
    (lo : PGROUNDUP oldsz ≤ v * PGSIZE) (hi : v * PGSIZE < newsz) :
    u'.pgdir.entry v = none := by
  generalize result : (0 : Nat) = r at h
  induction h with
  | stop _ => exact absurd hi (by omega)
  | @fail u u' a r below _ freed =>
    have grow : oldsz < newsz := by
      have := PGROUNDUP_eq fits
      omega
    rcases deallocuvm_cases (Nat.le_of_lt low) freed with ⟨le, -⟩ | ⟨-, -, loop⟩
    · exact absurd le (by omega)
    rcases before with table | ⟨-, none⟩
    · exact loop.empty (PGROUNDUP_mod oldsz) (.inl table) lo hi
    · exact (loop.freed (PGROUNDUP_mod oldsz)).entry_none (none v lo hi)
  | @page u w u' a mem r k q _ below taken _ mapped _ ih =>
    apply ih (by omega) ?_ result
    have nonempty : u.kmem.freelist ≠ [] := by
      rw [(kalloc_some taken).1]
      exact List.cons_ne_nil _ _
    cases mapped with
    | none same empty _ =>
      subst same
      exact before.imp id fun h => ⟨.inr empty, h.2⟩
    | page _ _ table tables _ =>
      left
      rcases before with there | ⟨first | empty, -⟩
      · exact tables _ there
      · exact first ▸ table
      · exact absurd empty nonempty

theorem Allocs.result (h : Allocs oldsz newsz u a r u') : r = 0 ∨ r = newsz := by
  induction h with
  | stop _ => exact .inr rfl
  | fail _ _ _ => exact .inl rfl
  | page _ _ _ _ _ _ ih => exact ih

theorem allocuvm_cases (done : allocuvm u oldsz newsz = .ok (r, u')) :
    KERNBASE ≤ newsz ∧ r = 0 ∧ u' = u ∨ newsz < oldsz ∧ r = oldsz ∧ u' = u ∨
    oldsz ≤ newsz ∧ newsz < KERNBASE ∧ Allocs oldsz newsz u (PGROUNDUP oldsz) r u' := by
  unfold allocuvm at done
  split at done
  · cases done
    exact .inl ⟨‹_›, rfl, rfl⟩
  · split at done
    · cases done
      exact .inr (.inl ⟨‹_›, rfl, rfl⟩)
    · have low : newsz < KERNBASE := by omega
      exact .inr (.inr ⟨by omega, low, allocuvmLoop_allocs low (PGROUNDUP_mod oldsz) done⟩)

theorem deallocuvmLoop_not_remap (n : Nat) (u : Uvm) (a oldsz : Nat) :
    deallocuvmLoop n u a oldsz ≠ .error .remap := by
  induction n generalizing u a with
  | zero => simp [deallocuvmLoop]
  | succ n ih =>
    intro failed
    unfold deallocuvmLoop at failed
    split at failed
    · split at failed
      · exact ih _ _ failed
      · rcases Lib.bind_error.mp failed with page | ⟨w', -, rest⟩
        · unfold deallocPage at page
          split at page
          · cases page
          · split at page
            · cases page
            · rcases Lib.bind_error.mp page with free | ⟨k, -, eq⟩
              · unfold Kmem.kfree at free
                split at free <;> cases free
              · cases eq
        · exact ih _ _ rest
    · cases failed

theorem deallocuvm_not_remap (u : Uvm) (oldsz newsz : Nat) :
    deallocuvm u oldsz newsz ≠ .error .remap := by
  intro failed
  unfold deallocuvm at failed
  split at failed
  · cases failed
  · rcases Lib.bind_error.mp failed with loop | ⟨w, -, eq⟩
    · exact deallocuvmLoop_not_remap _ _ _ _ loop
    · cases eq

theorem allocuvmLoop_not_remap (low : newsz < KERNBASE) (aligned : a % PGSIZE = 0)
    (none : ∀ v, a ≤ v * PGSIZE → v * PGSIZE < newsz → u.pgdir.entry v = none) :
    allocuvmLoop n u a oldsz newsz ≠ .error .remap := by
  induction n generalizing u a with
  | zero => simp [allocuvmLoop]
  | succ n ih =>
    intro failed
    unfold allocuvmLoop at failed
    split at failed
    · rename_i below
      have page := word_next below (Nat.le_of_lt low)
      have high : a + PGSIZE ≤ 2 ^ 32 := by
        omega
      split at failed
      · rcases Lib.bind_error.mp failed with freed | ⟨w, -, eq⟩
        · exact deallocuvm_not_remap _ _ _ freed
        · cases eq
      · rename_i mem k taken
        have here : u.pgdir.entry (a / PGSIZE) = .none := by
          apply none <;> simp only [PGSIZE] at aligned ⊢ <;> omega
        obtain ⟨⟨q, w⟩, ok⟩ :=
          mappages_ok (u := { u with kmem := k.memset mem 0 }) (userPte mem) aligned high here
        rw [ok, Lib.ok_bind, page] at failed
        refine ih (page_next aligned) (fun v lo hi => ?_) failed
        cases mappages_page aligned high ok with
        | none same _ _ =>
          rw [same]
          exact none v (by omega) hi
        | page _ entry _ _ _ =>
          rw [entry, update_of_ne]
          · exact none v (by omega) hi
          · simp only [PGSIZE] at aligned lo ⊢
            omega
    · cases failed

theorem Mapped.apart {w : Uvm} {mem : Nat} {q : Int} (user : a / PGSIZE < UPAGES)
    (taken : u.kmem.kalloc = some (mem, k))
    (mapped : Mapped { u with kmem := k.memset mem 0 } w a (userPte mem) q) :
    u.kmem.Takes w.kmem ∧ (u.Apart → w.Apart) := by
  have first : u.kmem.Takes (k.memset mem 0) := kalloc_takes taken _
  have list := (kalloc_some taken).1
  cases mapped with
  | none same _ absent =>
    subst same
    exact ⟨first, fun apart =>
      (show Lib.Exclusive u.pgdir.owner (mem :: k.freelist) from list ▸ apart).discard⟩
  | page free entry _ _ takes =>
    refine ⟨first.trans takes, fun apart => ?_⟩
    change Lib.Exclusive w.pgdir.owner w.kmem.freelist
    rw [PgDir.owner_set user entry]
    exact ((show Lib.Exclusive u.pgdir.owner (mem :: k.freelist) from list ▸ apart).take
      (a / PGSIZE)).suffix takes.suffix

theorem Allocs.memory (h : Allocs oldsz newsz u a r u') (low : newsz < KERNBASE)
    (start : PGROUNDUP oldsz ≤ a) (apart : u.Apart) :
    u'.Apart ∧ ∀ v e, v < UPAGES → v * PGSIZE < PGROUNDUP oldsz → u.pgdir.entry v = some e →
      u'.kmem.mem e.pa = u.kmem.mem e.pa := by
  induction h with
  | stop _ => exact ⟨apart, fun _ _ _ _ _ => rfl⟩
  | fail _ _ freed =>
    obtain ⟨final, kept⟩ := deallocuvm_memory (Nat.le_of_lt low) apart freed
    refine ⟨final, fun v e user below there => kept v e user ?_⟩
    rcases (deallocuvm_freed (Nat.le_of_lt low) freed).entry v with same | ⟨-, inside, -⟩
    · exact same.trans there
    · exact absurd inside (by omega)
  | @page u w u' a mem r k q aligned less taken _ mapped _ ih =>
    obtain ⟨takes, kept⟩ := mapped.apart (user_page (by omega)) taken
    obtain ⟨final, mem⟩ := ih (by omega) (kept apart)
    refine ⟨final, fun v e user below there => ?_⟩
    have still : w.pgdir.entry v = some e := by
      cases mapped with
      | none same _ _ => exact same ▸ there
      | page _ entry _ _ _ =>
        rw [entry, update_of_ne]
        · exact there
        · simp only [PGSIZE] at below aligned ⊢
          omega
    rw [mem v e user below still]
    exact takes.mem e.pa (apart.used (PgDir.owner_some user there))

structure Paged (u u' : Uvm) (v : Nat) : Prop where
  takes : u.kmem.Takes u'.kmem
  absent : v < UPAGES → u.pgdir.entry v = none
  entry : u'.pgdir.entry = u.pgdir.entry ∨
    ∃ pa, u'.pgdir.entry = update u.pgdir.entry v (some (userPte pa))
  apart : u.Apart → u'.Apart

theorem Allocs.paged (h : Allocs a (a + PGSIZE) u a r u') (low : a + PGSIZE < KERNBASE)
    (served : r ≠ 0) : Paged u u' (a / PGSIZE) := by
  cases h with
  | stop above => exact absurd above (by simp only [PGSIZE]; omega)
  | fail _ _ _ => exact absurd rfl served
  | @page _ w _ _ mem _ k q _ _ taken _ mapped rest =>
    have last : w = u' := by
      cases rest with
      | stop _ => rfl
      | fail below _ _ => exact absurd below (by omega)
      | page _ below _ _ _ _ => exact absurd below (by omega)
    subst last
    obtain ⟨takes, apart⟩ := mapped.apart (user_page (by omega)) taken
    cases mapped with
    | none same _ absent =>
      subst same
      exact ⟨takes, fun _ => absent, .inl rfl, apart⟩
    | page free entry _ _ _ => exact ⟨takes, fun _ => free, .inr ⟨mem, entry⟩, apart⟩

theorem allocuvm_page (aligned : a % PGSIZE = 0) (word : a < 2 ^ 32)
    (done : allocuvm u a ((a + PGSIZE) % 2 ^ 32) = .ok (r, u')) (served : r ≠ 0) :
    Paged u u' (a / PGSIZE) := by
  rcases allocuvm_cases done with ⟨-, zero, -⟩ | ⟨wrapped, -, rfl⟩ | ⟨le, low, loop⟩
  · exact absurd zero served
  · -- only the last page of the address space makes basepgaddr + PGSIZE wrap
    refine ⟨.refl _, fun user => ?_, .inl rfl, id⟩
    simp only [UPAGES, PGSIZE, KERNBASE] at wrapped user
    omega
  · have end_ : (a + PGSIZE) % 2 ^ 32 = a + PGSIZE := by
      simp only [PGSIZE, KERNBASE] at aligned le low ⊢
      omega
    rw [end_] at loop low
    rw [PGROUNDUP_aligned aligned (by omega)] at loop
    exact loop.paged low served

theorem allocuvm_fault (word : a < 2 ^ 32)
    (done : allocuvm u (PGROUNDDOWN a) ((PGROUNDDOWN a + PGSIZE) % 2 ^ 32) = .ok (r, u'))
    (served : r ≠ 0) : Paged u u' (a / PGSIZE) := by
  have page : PGROUNDDOWN a / PGSIZE = a / PGSIZE := Nat.mul_div_cancel _ (by decide)
  have below : PGROUNDDOWN a ≤ a := Nat.div_mul_le_self _ _
  exact page ▸ allocuvm_page (Nat.mul_mod_left _ _) (by omega) done served

end Alloc

section Copy

variable {u u' : Uvm}

theorem mappagesLoop_outside {last : Nat} (aligned : a % PGSIZE = 0)
    (end_ : last % PGSIZE = 0) (le : a ≤ last) (word : last < 2 ^ 32)
    (done : mappagesLoop n u a last e = .ok (r, u'))
    (out : v < a / PGSIZE ∨ last / PGSIZE < v) : u'.pgdir.entry v = u.pgdir.entry v := by
  induction n generalizing u a e with
  | zero => cases done
  | succ n ih =>
    unfold mappagesLoop at done
    split at done
    · cases done
      rfl
    · rename_i w walked
      have same := (walkpgdir_some walked).entry
      split at done
      · cases done
      · have first : (w.pgdir.set (a / PGSIZE) (some e)).entry v = u.pgdir.entry v := by
          rw [w.pgdir.entry_set_ne _ (by simp only [PGSIZE] at out le ⊢; omega), same]
        split at done
        · cases done
          exact first
        · have page : (a + PGSIZE) % 2 ^ 32 = a + PGSIZE := by
            simp only [PGSIZE] at aligned end_ ⊢
            omega
          rw [page] at done
          rw [ih ?_ ?_ done ?_]
          · exact first
          all_goals simp only [PGSIZE] at aligned end_ out ⊢; omega

theorem mappages_outside {size : Nat} (pos : 0 < size)
    (word : va + size ≤ 2 ^ 32) (done : mappages u va size e = .ok (r, u'))
    (out : v < va / PGSIZE ∨ (va + size - 1) / PGSIZE < v) :
    u'.pgdir.entry v = u.pgdir.entry v := by
  have last : (va + size - 1) % 2 ^ 32 = va + size - 1 := by omega
  unfold mappages at done
  rw [last] at done
  unfold PGROUNDDOWN at done
  apply mappagesLoop_outside _ _ _ _ done
  all_goals simp only [PGSIZE] at out ⊢; omega

theorem setupkvmLoop_user {ks : List Kmap} {ok : Bool}
    (kernel : ∀ k ∈ ks, KERNBASE ≤ k.virt ∧ 0 < k.size ∧ k.virt + k.size ≤ 2 ^ 32)
    (done : setupkvmLoop ks u = .ok (ok, u')) (user : v < UPAGES) :
    u'.pgdir.entry v = u.pgdir.entry v := by
  induction ks generalizing u with
  | nil =>
    cases done
    rfl
  | cons k ks ih =>
    obtain ⟨⟨r, w⟩, mapped, rest⟩ := bind_ok.mp done
    obtain ⟨high, pos, word⟩ := kernel k List.mem_cons_self
    have first : w.pgdir.entry v = u.pgdir.entry v := by
      apply mappages_outside pos word mapped
      left
      simp only [UPAGES, PGSIZE, KERNBASE] at user high ⊢
      omega
    dsimp only at rest
    split at rest
    · cases rest
      exact first
    · rw [ih (fun k hk => kernel k (List.mem_cons_of_mem _ hk)) rest, first]

theorem kmap_kernel (d : DataAddr) {k : Kmap} (mem : k ∈ kmap d) :
    KERNBASE ≤ k.virt ∧ 0 < k.size ∧ k.virt + k.size ≤ 2 ^ 32 := by
  obtain ⟨d, low, high⟩ := d
  simp only [kmap, List.mem_cons, List.not_mem_nil, or_false] at mem
  simp only [KERNLINK, KERNBASE, EXTMEM, PHYSTOP] at low high
  rcases mem with rfl | rfl | rfl | rfl <;>
    simp only [Kmap.size, KERNLINK, KERNBASE, EXTMEM, PHYSTOP, DEVSPACE] <;> omega

theorem setupkvm_user (done : setupkvm k = .ok (some d, k')) (user : v < UPAGES) :
    d.entry v = none := by
  unfold setupkvm at done
  split at done
  · cases done
  · obtain ⟨⟨ok, w⟩, loop, eq⟩ := bind_ok.mp done
    have kept := setupkvmLoop_user (fun _ mem => kmap_kernel _ mem) loop user
    cases ok with
    | false => cases eq
    | true =>
      cases eq
      exact kept

theorem copyuvmLoop_user {pgdir : PgDir} {i : Nat} {ok : Bool} (aligned : i % PGSIZE = 0)
    (word : sz ≤ 2 ^ 32) (done : copyuvmLoop pgdir n u i sz = .ok (ok, u'))
    (above : sz ≤ v * PGSIZE) : u'.pgdir.entry v = u.pgdir.entry v := by
  induction n generalizing u i with
  | zero => cases done
  | succ n ih =>
    have next : (i + PGSIZE) % 2 ^ 32 % PGSIZE = 0 := by
      simp only [PGSIZE] at aligned ⊢
      omega
    unfold copyuvmLoop at done
    split at done
    · split at done
      · cases done
      · split at done
        · exact ih next done
        · split at done
          · cases done
            rfl
          · obtain ⟨⟨r, w⟩, mapped, rest⟩ := bind_ok.mp done
            have first : w.pgdir.entry v = u.pgdir.entry v := by
              apply mappages_outside (by decide) _ mapped
              · right
                simp only [PGSIZE] at aligned above ⊢
                omega
              · simp only [PGSIZE] at aligned above ⊢
                omega
            dsimp only at rest
            split at rest
            · cases rest
              exact first
            · rw [ih next rest, first]
    · cases done
      rfl

theorem copyuvm_user {pgdir : PgDir} (word : sz ≤ 2 ^ 32)
    (done : copyuvm pgdir k sz = .ok (some d, k')) (user : v < UPAGES)
    (above : sz ≤ v * PGSIZE) : d.entry v = none := by
  obtain ⟨⟨d₀, k₀⟩, setup, rest⟩ := bind_ok.mp done
  cases d₀ with
  | none => cases rest
  | some d₀ =>
    obtain ⟨⟨ok, w⟩, loop, eq⟩ := bind_ok.mp rest
    have kept := copyuvmLoop_user (by decide) word loop above
    cases ok with
    | false =>
      obtain ⟨_, -, eq⟩ := bind_ok.mp eq
      cases eq
    | true =>
      cases eq
      rw [kept, setupkvm_user setup user]

end Copy

end MmapXv6
