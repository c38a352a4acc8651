import MmapXv6.Vm.Moves

/-! The kernel's half of a page directory. setupkvm takes one page for the directory and
64 for page tables, whatever the address of the kernel's data is, as long as it starts a
page. With fewer pages it returns 0 and gives none of them back. -/
namespace MmapXv6

open Lib (bind_ok fibre)
open Function

def kernelTab (i : Nat) : Bool := (512 ≤ i && i < 568) || (1016 ≤ i && i < 1024)

def kernelPage (v : Nat) : Bool := (0x80000 ≤ v && v < 0x8E000) || (0xFE000 ≤ v && v < 0x100000)

abbrev KVMPAGES : Nat := 65

section Tables

def PgDir.tables (d : PgDir) : Nat := (Finset.univ.filter fun i : Fin NPDENTRIES => d.has i).card

theorem PgDir.tables_update {d d' : PgDir} {i : Nat} (index : i < NPDENTRIES)
    (has : d'.has = update d.has i true) :
    d'.tables = d.tables + if d.has i then 0 else 1 := by
  unfold PgDir.tables
  rw [has]
  cases before : d.has i with
  | true =>
    have same : update d.has i true = d.has := by rw [← before, update_eq_self]
    rw [same]
    simp
  | false =>
    have new : (Finset.univ.filter fun j : Fin NPDENTRIES => update d.has i true j) =
        insert ⟨i, index⟩ (Finset.univ.filter fun j : Fin NPDENTRIES => d.has j) := by
      ext j
      by_cases e : j = ⟨i, index⟩
      · subst e
        simp
      · have ne : j.1 ≠ i := fun same => e (Fin.ext same)
        simp [ne, e]
    rw [new, Finset.card_insert_of_notMem (by simp [before])]
    rfl

theorem PgDir.tables_congr {d : PgDir} (has : ∀ i, d.has i = kernelTab i) : d.tables = 64 := by
  have same : d.has = kernelTab := funext has
  unfold PgDir.tables
  rw [same]
  decide +kernel

theorem PgDir.tables_lt {d : PgDir} (has : ∀ i, d.has i = true → kernelTab i = true) {j : Nat}
    (tab : kernelTab j = true) (absent : d.has j = false) : d.tables < 64 := by
  have index : j < NPDENTRIES := by
    simp only [kernelTab, Bool.or_eq_true, Bool.and_eq_true, decide_eq_true_eq] at tab
    simp only [NPDENTRIES]
    omega
  have full : (Finset.univ.filter fun i : Fin NPDENTRIES => kernelTab i).card = 64 := by
    decide +kernel
  rw [← full]
  refine Finset.card_lt_card ⟨fun i hi => ?_, fun sub => ?_⟩
  · simp only [Finset.mem_filter, Finset.mem_univ, true_and] at hi ⊢
    exact has i hi
  · have inside : (⟨j, index⟩ : Fin NPDENTRIES) ∈
        Finset.univ.filter fun i : Fin NPDENTRIES => kernelTab i := by simpa using tab
    have := sub inside
    simp [absent] at this

end Tables

section Map
variable {u w : Uvm} {a last : Nat} {e : Pte}

/-- What mapping a range of absent pages leaves, in success and when no page is left
for a page table. -/
structure Ranged (u w : Uvm) (a last pa : Nat) (r : Int) : Prop where
  free : w.kmem.freelist.length + w.pgdir.tables = u.kmem.freelist.length + u.pgdir.tables
  list : w.kmem.freelist <:+ u.kmem.freelist
  kdata : w.kmem.kdata = u.kmem.kdata
  grown : ∀ i, w.pgdir.has i = true → u.pgdir.has i = true ∨ PDX a ≤ i ∧ i ≤ PDX last
  entry : ∀ v, v < a / PGSIZE ∨ last / PGSIZE < v → w.pgdir.entry v = u.pgdir.entry v
  keep : ∀ i, u.pgdir.has i = true → w.pgdir.has i = true
  result : r = 0 ∧ (∀ i, PDX a ≤ i → i ≤ PDX last → w.pgdir.has i = true) ∧
      (∀ v, a / PGSIZE ≤ v → v ≤ last / PGSIZE →
        ∃ e, w.pgdir.entry v = some e ∧ e.pa = pa + (v - a / PGSIZE)) ∨
    r = -1 ∧ w.kmem.freelist = [] ∧ ∃ i, PDX a ≤ i ∧ i ≤ PDX last ∧ w.pgdir.has i = false

structure PageSet (u w : Uvm) (a : Nat) (e : Pte) : Prop where
  free : w.kmem.freelist.length + w.pgdir.tables = u.kmem.freelist.length + u.pgdir.tables
  list : w.kmem.freelist <:+ u.kmem.freelist
  kdata : w.kmem.kdata = u.kmem.kdata
  has : w.pgdir.has = update u.pgdir.has (PDX a) true
  entry : w.pgdir.entry = update u.pgdir.entry (a / PGSIZE) (some e)

theorem PageSet.has_iff (h : PageSet u w a e) (i : Nat) :
    w.pgdir.has i = true ↔ u.pgdir.has i = true ∨ i = PDX a := by
  rw [h.has, update_apply]
  split
  · simp [‹i = PDX a›]
  · simp [‹¬i = PDX a›]

theorem walkpgdir_list (walked : walkpgdir u a true = some w) :
    w.kmem.freelist <:+ u.kmem.freelist := by
  unfold walkpgdir at walked
  split at walked
  · cases walked
    exact List.suffix_refl _
  · rw [if_pos rfl] at walked
    split at walked
    · cases walked
    · rename_i taken
      cases walked
      exact ⟨[_], (kalloc_some taken).1.symm⟩

theorem walkpgdir_set (word : a < 2 ^ 32) (walked : walkpgdir u a true = some w) (e : Pte) :
    PageSet u { w with pgdir := w.pgdir.set (a / PGSIZE) (some e) } a e := by
  obtain ⟨entry, table, -, -⟩ := walkpgdir_some walked
  obtain ⟨has, free⟩ := PgDir.has_walked walked
  have index : PDX a < NPDENTRIES := by
    unfold PDX
    simp only [PGSIZE, NPTENTRIES, NPDENTRIES]
    omega
  have count := PgDir.tables_update index has
  have moves : Moves True True u w := walkpgdir_moves word walked
  refine ⟨?_, (walkpgdir_list walked :), moves.fixed.2, has, ?_⟩
  · change w.kmem.freelist.length + w.pgdir.tables = _
    rw [count, free, PgDir.tableNeed]
    unfold PgDir.has
    split <;> omega
  · rw [← entry]
    exact w.pgdir.entry_set (some e) table

theorem PageSet.ranged (h : PageSet u w a e) : Ranged u w a a e.pa 0 := by
  refine ⟨h.free, h.list, h.kdata, fun i hi => ?_, fun v out => ?_,
    fun i hi => (h.has_iff i).mpr (.inl hi),
    .inl ⟨rfl, fun i lo hi => (h.has_iff i).mpr (.inr (by omega)), fun v lo hi => ?_⟩⟩
  · exact ((h.has_iff i).mp hi).imp_right fun same => by omega
  · rw [h.entry, update_of_ne (by omega)]
  · have here : v = a / PGSIZE := by omega
    rw [h.entry, here, update_self]
    exact ⟨e, rfl, by omega⟩

theorem PageSet.cons {v : Uvm} {r : Int} (h : PageSet u v a e) (le : a + PGSIZE ≤ last)
    (after : Ranged v w (a + PGSIZE) last (e.pa + 1) r) : Ranged u w a last e.pa r := by
  have page : (a + PGSIZE) / PGSIZE = a / PGSIZE + 1 := by
    simp only [PGSIZE]
    omega
  have tab : PDX a ≤ PDX (a + PGSIZE) ∧ PDX (a + PGSIZE) ≤ PDX a + 1 := by
    unfold PDX
    simp only [PGSIZE, NPTENTRIES]
    omega
  have end_ : a / PGSIZE ≤ last / PGSIZE ∧ PDX a ≤ PDX last := by
    unfold PDX
    simp only [PGSIZE, NPTENTRIES] at le ⊢
    omega
  refine ⟨after.free.trans h.free, after.list.trans h.list, after.kdata.trans h.kdata,
    fun i hi => ?_, fun x out => ?_, fun i hi => after.keep i ((h.has_iff i).mpr (.inl hi)), ?_⟩
  · rcases after.grown i hi with old | new
    · exact ((h.has_iff i).mp old).imp_right fun same => by omega
    · exact .inr (by omega)
  · rw [after.entry x (by omega), h.entry, update_of_ne (by omega)]
  · rcases after.result with ⟨zero, tabs, pages⟩ | ⟨minus, empty, i, lo, hi, absent⟩
    · refine .inl ⟨zero, fun i lo hi => ?_, fun x lo hi => ?_⟩
      · by_cases here : i = PDX a
        · exact after.keep i ((h.has_iff i).mpr (.inr here))
        · exact tabs i (by omega) hi
      · by_cases here : x = a / PGSIZE
        · rw [after.entry x (by omega), h.entry, here, update_self]
          exact ⟨e, rfl, by omega⟩
        · obtain ⟨f, there, pa⟩ := pages x (by omega) hi
          exact ⟨f, there, by omega⟩
    · exact .inr ⟨minus, empty, i, by omega, hi, absent⟩

theorem mappagesLoop_ranged {n : Nat} (aligned : a % PGSIZE = 0) (end_ : last % PGSIZE = 0)
    (le : a ≤ last) (word : last < 2 ^ 32) (fuel : (last - a) / PGSIZE < n)
    (vacant : ∀ v, a / PGSIZE ≤ v → v ≤ last / PGSIZE → u.pgdir.entry v = none) :
    ∃ r w, mappagesLoop n u a last e = .ok (r, w) ∧ Ranged u w a last e.pa r := by
  induction n generalizing u a e with
  | zero => exact absurd fuel (Nat.not_lt_zero _)
  | succ n ih =>
    have pages : a / PGSIZE ≤ last / PGSIZE := Nat.div_le_div_right le
    unfold mappagesLoop
    cases walked : walkpgdir u a true with
    | none =>
      obtain ⟨absent, empty⟩ := walkpgdir_none walked
      have tabs : PDX a ≤ PDX last := Nat.div_le_div_right pages
      exact ⟨_, _, rfl, rfl, List.suffix_refl _, rfl, fun i h => .inl h, fun _ _ => rfl,
        fun _ h => h, .inr ⟨rfl, empty, PDX a, Nat.le_refl _, tabs, by simp [PgDir.has, absent]⟩⟩
    | some v =>
      obtain ⟨entry, table, -, -⟩ := walkpgdir_some walked
      have one := walkpgdir_set (by omega) walked e
      have here : v.pgdir.pte (a / PGSIZE) = none := by
        rw [← v.pgdir.entry_of_table table, entry]
        exact vacant _ (Nat.le_refl _) pages
      dsimp only
      rw [if_neg (by rw [here]; simp)]
      by_cases final : a = last
      · rw [if_pos final]
        subst final
        exact ⟨_, _, rfl, one.ranged⟩
      · rw [if_neg final]
        have le' : a + PGSIZE ≤ last := by
          simp only [PGSIZE] at aligned end_ ⊢
          omega
        have next : (a + PGSIZE) % 2 ^ 32 = a + PGSIZE := Nat.mod_eq_of_lt (by omega)
        have fuel' : (last - (a + PGSIZE)) / PGSIZE < n := by
          simp only [PGSIZE] at le' fuel ⊢
          omega
        have vacant' : ∀ x, (a + PGSIZE) / PGSIZE ≤ x → x ≤ last / PGSIZE →
            (v.pgdir.set (a / PGSIZE) (some e)).entry x = none := by
          intro x lo hi
          have ne : x ≠ a / PGSIZE ∧ a / PGSIZE ≤ x := by
            simp only [PGSIZE] at lo ⊢
            omega
          rw [one.entry, update_of_ne ne.1]
          exact vacant x ne.2 hi
        rw [next]
        obtain ⟨r, w, run, after⟩ :=
          ih (u := { v with pgdir := v.pgdir.set (a / PGSIZE) (some e) })
            (page_next aligned) le' fuel' vacant'
        exact ⟨r, w, run, one.cons le' after⟩

end Map

section Setup
variable {u w : Uvm} {k k' : Kmem}

def Laid : Nat → List Kmap → Prop
  | _, [] => True
  | v, m :: rest => v ≤ m.virt / PGSIZE ∧ 0 < m.size ∧ m.virt + m.size ≤ 2 ^ 32 ∧
      Laid ((m.virt + m.size - 1) / PGSIZE + 1) rest

def PageOf (ks : List Kmap) (v pa : Nat) : Prop :=
  ∃ m ∈ ks, m.virt / PGSIZE ≤ v ∧ v ≤ (m.virt + m.size - 1) / PGSIZE ∧
    pa = m.physStart / PGSIZE + (v - m.virt / PGSIZE)

def TabOf (ks : List Kmap) (i : Nat) : Prop :=
  ∃ m ∈ ks, PDX m.virt ≤ i ∧ i ≤ PDX (m.virt + m.size - 1)

structure Regions (u w : Uvm) (ks : List Kmap) (ok : Bool) : Prop where
  free : w.kmem.freelist.length + w.pgdir.tables = u.kmem.freelist.length + u.pgdir.tables
  list : w.kmem.freelist <:+ u.kmem.freelist
  grown : ∀ i, w.pgdir.has i = true → u.pgdir.has i = true ∨ TabOf ks i
  keep : ∀ i, u.pgdir.has i = true → w.pgdir.has i = true
  entry : ∀ v e, u.pgdir.entry v = some e → w.pgdir.entry v = some e
  result : ok = true ∧ (∀ i, TabOf ks i → w.pgdir.has i = true) ∧
      (∀ v pa, PageOf ks v pa → ∃ e, w.pgdir.entry v = some e ∧ e.pa = pa) ∨
    ok = false ∧ w.kmem.freelist = [] ∧ ∃ i, TabOf ks i ∧ w.pgdir.has i = false

theorem mappages_ranged {va size : Nat} {e : Pte} (pos : 0 < size) (word : va + size ≤ 2 ^ 32)
    (vacant : ∀ v, va / PGSIZE ≤ v → v ≤ (va + size - 1) / PGSIZE → u.pgdir.entry v = none) :
    ∃ r w, mappages u va size e = .ok (r, w) ∧
      Ranged u w (PGROUNDDOWN va) (PGROUNDDOWN (va + size - 1)) e.pa r := by
  have last : (va + size - 1) % 2 ^ 32 = va + size - 1 := by omega
  unfold mappages
  rw [last]
  unfold PGROUNDDOWN
  refine mappagesLoop_ranged ?_ ?_ ?_ ?_ ?_ fun v lo hi => vacant v ?_ ?_
  all_goals simp only [PGSIZE, NPAGES, NPDENTRIES, NPTENTRIES] at *; omega

theorem PDX_rounddown (a : Nat) : PDX (PGROUNDDOWN a) = PDX a := by
  unfold PDX PGROUNDDOWN
  rw [Nat.mul_div_cancel _ (by decide)]

theorem page_rounddown (a : Nat) : PGROUNDDOWN a / PGSIZE = a / PGSIZE := by
  unfold PGROUNDDOWN
  rw [Nat.mul_div_cancel _ (by decide)]

theorem setupkvmLoop_regions {ks : List Kmap} {v : Nat} (laid : Laid v ks)
    (vacant : ∀ x, v ≤ x → u.pgdir.entry x = none) :
    ∃ ok w, setupkvmLoop ks u = .ok (ok, w) ∧ Regions u w ks ok := by
  induction ks generalizing u v with
  | nil =>
    exact ⟨true, u, rfl, rfl, List.suffix_refl _, fun i h => .inl h, fun _ h => h, fun _ _ h => h,
      .inl ⟨rfl, fun i h => by simp [TabOf] at h, fun x _ h => by simp [PageOf] at h⟩⟩
  | cons m ks ih =>
    obtain ⟨start, pos, word, laid⟩ := laid
    obtain ⟨r, x, run, one⟩ := mappages_ranged (u := u)
      (e := ⟨m.physStart / PGSIZE, m.writable, false, false⟩) pos word
      fun v lo _ => vacant v (start.trans lo)
    have tabs : ∀ i, TabOf (m :: ks) i ↔
        (PDX m.virt ≤ i ∧ i ≤ PDX (m.virt + m.size - 1)) ∨ TabOf ks i := by
      intro i
      simp [TabOf]
    obtain ⟨free, list, -, grown, entry, keep, result⟩ := one
    simp only [PDX_rounddown, page_rounddown] at grown entry result
    have kept : ∀ v e, u.pgdir.entry v = some e → x.pgdir.entry v = some e := by
      intro v e there
      rw [entry v ?_]
      · exact there
      · by_contra inside
        rw [vacant v (by omega)] at there
        cases there
    unfold setupkvmLoop
    rw [run]
    rcases result with ⟨rfl, here, pages⟩ | ⟨rfl, empty, i, lo, hi, absent⟩
    · obtain ⟨ok, w, rest, after⟩ := ih (u := x) laid fun y above => by
        rw [entry y (by omega)]
        exact vacant y (by simp only [PGSIZE] at *; omega)
      refine ⟨ok, w, rest, after.free.trans free, after.list.trans list, fun i hi => ?_,
        fun i hi => after.keep i (keep i hi), fun v e there => after.entry v e (kept v e there), ?_⟩
      · rcases after.grown i hi with old | new
        · exact (grown i old).imp_right fun h => (tabs i).mpr (.inl h)
        · exact .inr ((tabs i).mpr (.inr new))
      · rcases after.result with ⟨yes, all, present⟩ | ⟨no, none, i, tab, absent⟩
        · refine .inl ⟨yes, fun i tab => ?_, fun v pa page => ?_⟩
          · rcases (tabs i).mp tab with ⟨lo, hi⟩ | tab
            · exact after.keep i (here i lo hi)
            · exact all i tab
          · obtain ⟨q, mem, lo, hi, rfl⟩ := page
            rcases List.mem_cons.mp mem with rfl | mem
            · obtain ⟨e, there, same⟩ := pages v lo hi
              exact ⟨e, after.entry v e there, same⟩
            · exact present v _ ⟨q, mem, lo, hi, rfl⟩
        · exact .inr ⟨no, none, i, (tabs i).mpr (.inr tab), absent⟩
    · exact ⟨false, x, rfl, free, list, fun i hi => (grown i hi).imp_right fun h =>
        (tabs i).mpr (.inl h),
        keep, kept, .inr ⟨rfl, empty, i, (tabs i).mpr (.inl ⟨lo, hi⟩), absent⟩⟩

theorem kmap_laid (d : DataAddr) (aligned : d.1 % PGSIZE = 0) : Laid 0x80000 (kmap d) := by
  obtain ⟨d, low, high⟩ := d
  simp only [KERNLINK, KERNBASE, EXTMEM, PHYSTOP, PGSIZE] at low high aligned
  simp only [kmap, Laid, Kmap.size, KERNLINK, KERNBASE, EXTMEM, PHYSTOP, DEVSPACE, PGSIZE]
  refine ⟨?_, ?_, ?_, ?_, ?_, ?_, ?_, ?_, ?_, ?_, ?_, ?_, trivial⟩ <;> omega

theorem kmap_tab (d : DataAddr) (i : Nat) : TabOf (kmap d) i ↔ kernelTab i = true := by
  obtain ⟨d, low, high⟩ := d
  simp only [KERNLINK, KERNBASE, EXTMEM, PHYSTOP] at low high
  simp only [TabOf, kmap, List.mem_cons, List.not_mem_nil, or_false, exists_eq_or_imp,
    exists_eq_left, Kmap.size, PDX, KERNLINK, KERNBASE, EXTMEM, PHYSTOP, DEVSPACE, PGSIZE,
    NPTENTRIES, kernelTab, Bool.or_eq_true, Bool.and_eq_true, decide_eq_true_eq]
  omega

theorem kmap_page (d : DataAddr) (aligned : d.1 % PGSIZE = 0) {v : Nat}
    (page : kernelPage v = true) : PageOf (kmap d) v (if v < 0x8E000 then v - UPAGES else v) := by
  obtain ⟨d, low, high⟩ := d
  simp only [KERNLINK, KERNBASE, EXTMEM, PHYSTOP, PGSIZE] at low high aligned
  simp only [kernelPage, Bool.or_eq_true, Bool.and_eq_true, decide_eq_true_eq] at page
  simp only [PageOf, kmap, List.mem_cons, List.not_mem_nil, or_false, exists_eq_or_imp,
    exists_eq_left, Kmap.size, KERNLINK, KERNBASE, EXTMEM, PHYSTOP, DEVSPACE, PGSIZE, UPAGES]
  split <;> omega

theorem PgDir.count_fresh (page x : Nat) :
    ({ page := page } : PgDir).count x = if page = x then 1 else 0 := by
  rw [PgDir.count_cleared fun v _ => rfl]
  simp [Lib.card_fibre_none]

theorem kalloc_fresh {page : Nat} {m : Kmem} (taken : k.kalloc = some (page, m)) (x : Nat) :
    (⟨{ page := page }, m.memset page 0⟩ : Uvm).count x = k.freelist.count x := by
  have := (kalloc_hands taken fun _ => 0).count x
  unfold Uvm.count
  rw [PgDir.count_fresh]
  simp only [@eq_comm _ page x]
  dsimp only [Kmem.memset] at this ⊢
  omega

/-- What setupkvm leaves. In failure the free list is empty: what was on it is lost. -/
inductive KvmMade (k : Kmem) : Option PgDir → Kmem → Prop where
  | none {k' : Kmem} : k.freelist.length < KVMPAGES → k'.freelist = [] → k'.kend = k.kend →
      k'.kdata = k.kdata → (∀ x, x ∉ k.freelist → k'.mem x = k.mem x) → KvmMade k .none k'
  | some {d : PgDir} {k' : Kmem} : k.freelist.length = k'.freelist.length + KVMPAGES →
      (∀ i, d.has i = kernelTab i) → (∀ v, v < UPAGES → d.entry v = .none) →
      (∀ v, kernelPage v = true → (d.entry v).isSome) →
      (∀ x, (⟨d, k'⟩ : Uvm).count x = k.freelist.count x) → k'.kend = k.kend →
      k'.kdata = k.kdata → (∀ x, x ∉ k.freelist → k'.mem x = k.mem x) →
      k'.freelist <:+ k.freelist →
      (∀ v e, kernelPage v = true → d.entry v = .some e →
        e.pa = if v < 0x8E000 then v - UPAGES else v) → KvmMade k (.some d) k'

theorem setupkvm_made (aligned : k.kdata.1 % PGSIZE = 0) :
    ∃ d k', setupkvm k = .ok (d, k') ∧ KvmMade k d k' := by
  unfold setupkvm
  cases taken : k.kalloc with
  | none =>
    have empty := kalloc_none taken
    exact ⟨none, k, rfl, .none (by rw [empty]; decide) empty rfl rfl fun _ _ => rfl⟩
  | some r =>
    obtain ⟨page, m⟩ := r
    obtain ⟨list, mem⟩ := kalloc_some taken
    have hands := kalloc_hands taken fun _ => 0
    have count := kalloc_fresh taken
    have start : ({ page := page } : PgDir).tables = 0 := by simp [PgDir.tables, PgDir.has]
    have kdata : m.kdata = k.kdata := hands.kdata
    obtain ⟨ok, w, run, after⟩ := setupkvmLoop_regions
      (u := ⟨{ page := page }, m.memset page 0⟩)
      (kmap_laid m.kdata (by rw [kdata]; exact aligned)) fun x _ => rfl
    have moves : Moves False False ⟨{ page := page }, m.memset page 0⟩ w :=
      setupkvmLoop_moves (fun _ mem => kmap_kernel _ mem) run
    have free := after.free
    have user : ∀ v, v < UPAGES → w.pgdir.entry v = none :=
      fun v low => setupkvmLoop_user (fun _ mem => kmap_kernel _ mem) run low
    have bytes : ∀ x, x ∉ k.freelist → w.kmem.mem x = k.mem x := by
      intro x out
      have absent := count x
      rw [List.count_eq_zero_of_not_mem out] at absent
      rw [moves.mem_eq absent]
      exact hands.mem x fun same => out (by rw [list, same]; exact List.mem_cons_self)
    have grown : ∀ i, w.pgdir.has i = true → kernelTab i = true := by
      intro i there
      rcases after.grown i there with old | new
      · cases old
      · exact (kmap_tab _ i).mp new
    have before : (m.memset page 0).freelist.length + 1 = k.freelist.length := by
      rw [list]
      rfl
    have fixed := moves.fixed
    refine ⟨if ok then some w.pgdir else none, w.kmem, ?_, ?_⟩
    · dsimp only
      rw [run]
      rfl
    · rcases after.result with ⟨rfl, tabs, pages⟩ | ⟨rfl, empty, i, tab, absent⟩
      · have has : ∀ i, w.pgdir.has i = kernelTab i := fun i =>
          Bool.eq_iff_iff.mpr ⟨grown i, fun tab => tabs i ((kmap_tab _ i).mpr tab)⟩
        have suffix : w.kmem.freelist <:+ k.freelist := after.list.trans ⟨[page], list.symm⟩
        have data : m.kdata.1 % PGSIZE = 0 := by
          rw [kdata]
          exact aligned
        have mapped := fun v page => pages v _ (kmap_page _ data page)
        refine .some ?_ has user (fun v page => ?_) (fun x => (moves.count_eq x).trans (count x))
          (fixed.1.trans hands.kend) (fixed.2.trans hands.kdata) bytes suffix
          fun v e page there => ?_
        rotate_left
        · obtain ⟨e, there, -⟩ := mapped v page
          rw [there]
          rfl
        · obtain ⟨f, same, pa⟩ := mapped v page
          rw [there] at same
          cases same
          exact pa
        rw [PgDir.tables_congr has] at free
        simp only [KVMPAGES]
        dsimp only at free before
        omega
      · refine .none ?_ empty (fixed.1.trans hands.kend) (fixed.2.trans hands.kdata) bytes
        have fewer := PgDir.tables_lt grown ((kmap_tab _ i).mp tab) absent
        rw [empty] at free
        simp only [KVMPAGES]
        dsimp only [List.length_nil] at free before
        omega

theorem setupkvm_kvmMade {d : Option PgDir} (aligned : k.kdata.1 % PGSIZE = 0)
    (done : setupkvm k = .ok (d, k')) : KvmMade k d k' := by
  obtain ⟨d', k'', run, made⟩ := setupkvm_made aligned
  rw [done] at run
  cases run
  exact made

end Setup

end MmapXv6
