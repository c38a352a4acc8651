import MmapXv6.Vm.Alloc
import MmapXv6.Vm.Unmap

/-! growproc adds an int to the size in words of 32 bits and takes the size 0 for an error.
So a shrink to 0 gives up every page and then reports a failure, and a shrink below 0 wraps
around to a size that deallocuvm does not shrink to, and reports a success, as does a growth
from above KERNBASE that wraps around. In between the outcome is that of allocuvm and
deallocuvm. -/
namespace MmapXv6

open Lib (bind_ok ok_bind)

variable {p v : Nat} {tab : Nat → Option Nat}

section Blocked
variable {u x : Uvm} {oldsz newsz p q m : Nat}

theorem Skipped.congr {tab' : Nat → Option Nat} (h : Skipped tab p v)
    (same : ∀ i, (tab i).isSome ↔ (tab' i).isSome) : Skipped tab' p v := by
  obtain ⟨later, before, absent⟩ := h
  refine ⟨later, before, fun i below above => ?_⟩
  have gone := absent i below above
  rw [← Option.not_isSome_iff_eq_none, same i] at gone
  exact Option.not_isSome_iff_eq_none.mp gone

theorem Skipped.after (h : Skipped tab p v) : p < v := by
  by_contra le
  have := Nat.div_le_div_right (c := NPTENTRIES) (show v ≤ p by omega)
  have later := h.1
  omega

theorem FilledTo.tables {w : Uvm} (h : FilledTo u w p 0) (i : Nat) :
    (u.pgdir.tab i).isSome ↔ (w.pgdir.tab i).isSome := by
  rw [h.tab]
  exact (or_iff_left fun ⟨v, low, high, _⟩ => by omega).symm

/-- A growth whose first page that is there already is q: it panics there, or memory runs
out before. -/
theorem allocuvm_blocked (low : newsz < KERNBASE) (from_ : endPage oldsz ≤ q)
    (to_ : q < endPage newsz)
    (there : (u.pgdir.entry q).isSome) (vacant : ∀ v, endPage oldsz ≤ v → v < q →
      u.pgdir.entry v = none) :
    allocuvm u oldsz newsz = .error .remap ∨ ∃ x m, Stuck u x (endPage oldsz) m ∧
      endPage oldsz + m ≤ q ∧
      (m = 0 → u.kmem.freelist.length ≤ 1 ∧ ∀ i, (x.pgdir.tab i).isSome ↔ (u.pgdir.tab i).isSome) ∧
      allocuvm u oldsz newsz = deallocuvm x newsz oldsz >>= fun r => .ok (0, r.2) := by
  have le : oldsz ≤ newsz := by
    by_contra less
    have := endPage_mono (show newsz ≤ oldsz by omega)
    omega
  obtain ⟨m, n, w, upto, filled, room, last, run⟩ := allocuvm_prefix (u := u)
      (j := q - endPage oldsz) le low
    (by omega) (fun v from_ below => vacant v from_ (by omega))
  have tables : m = 0 → ∀ i, (w.pgdir.tab i).isSome ↔ (u.pgdir.tab i).isSome := by
    rintro rfl i
    exact (filled.tables i).symm
  rw [run]
  by_cases here : endPage oldsz + m = q
  · cases list : w.kmem.freelist with
    | nil =>
      rw [allocuvmLoop_none (by omega) list]
      refine .inr ⟨w, m, filled.stuck, by omega, fun zero => ⟨?_, tables zero⟩, rfl⟩
      have drop := filled.freelist
      rw [list, zero, growthNeed, List.drop_zero] at drop
      rw [← drop]
      exact Nat.zero_le 1
    | cons mem rest =>
      left
      have same : (w.pgdir.entry q).isSome := by
        rw [filled.outside q (by omega)]
        exact there
      rw [here, allocuvmLoop, if_pos (below_endPage.mpr to_), Kmem.kalloc, list]
      dsimp only
      rw [mappages_remap (Nat.mul_mod_left q PGSIZE) (growing_word low to_).1
        (by rw [Nat.mul_div_cancel q (by decide)]; exact same)]
      rfl
  · have short := last.resolve_left (by omega)
    rcases filled.short room short with ⟨none, length⟩ | ⟨mem, list, needs, length⟩
    · rw [allocuvmLoop_none (by omega) none]
      refine .inr ⟨w, m, filled.stuck, by omega, fun zero => ⟨?_, tables zero⟩, rfl⟩
      rw [length, zero]
      exact Nat.zero_le 1
    · have empty : w.pgdir.entry (endPage oldsz + m) = none := by
        rw [filled.outside _ (.inr (Nat.le_refl _)), vacant _ (by omega) (by omega)]
      have free : mem ∈ u.kmem.freelist := filled.subset (by rw [list]; exact List.mem_cons_self)
      rw [allocuvmLoop_lose low (by omega) empty (filled.needsTable.mpr needs) list,
        allocuvmLoop_none (by omega) rfl]
      refine .inr ⟨_, m, filled.stuck.losePage free, by omega, fun zero => ⟨?_, tables zero⟩, rfl⟩
      rw [length, zero]
      exact Nat.le_refl 1

theorem deallocuvm_idle (less : newsz < oldsz) (low : oldsz ≤ KERNBASE)
    (idle : ∀ v e, endPage newsz ≤ v → v < endPage oldsz → x.pgdir.entry v = some e →
      Skipped x.pgdir.tab (endPage newsz) v) :
    ∃ u', deallocuvm x oldsz newsz = .ok (newsz, u') ∧ u'.pgdir.entry = x.pgdir.entry ∧
      u'.kmem.mem = x.kmem.mem := by
  obtain ⟨u', done, cleared⟩ := (deallocuvm_cleared less low).1 fun v e lo hi visited here =>
    absurd (idle v e lo hi here) visited
  have nothing : passed x.pgdir (endPage newsz) (endPage oldsz) = [] := by
    refine List.filterMap_eq_nil_iff.mpr fun v mem => ?_
    obtain ⟨lo, hi⟩ := List.mem_range'_1.mp mem
    unfold visitPage
    split
    · rfl
    · rename_i visited
      cases here : x.pgdir.entry v with
      | none => rfl
      | some e => exact absurd (idle v e lo (by omega) here) visited
  refine ⟨u', done, funext fun v => ?_, funext fun pa => ?_⟩
  · by_cases kept : v < endPage newsz ∨ endPage oldsz ≤ v ∨ Skipped x.pgdir.tab (endPage newsz) v
    · exact cleared.kept v kept
    · push Not at kept
      rw [cleared.gone v kept.1 kept.2.1 kept.2.2]
      cases here : x.pgdir.entry v with
      | none => rfl
      | some e => exact absurd (idle v e kept.1 kept.2.1 here) kept.2.2
  · exact cleared.mem pa (by rw [nothing]; exact List.not_mem_nil)

theorem allocuvm_starts (low : newsz < KERNBASE) (more : endPage oldsz + 1 < endPage newsz)
    (absent : u.pgdir.tab (endPage oldsz / NPTENTRIES) = none)
    (short : u.kmem.freelist.length ≤ 1) :
    ∃ x, Stuck u x (endPage oldsz) 0 ∧ (∀ i, (u.pgdir.tab i).isSome ↔ (x.pgdir.tab i).isSome) ∧
      allocuvm u oldsz newsz = deallocuvm x newsz oldsz >>= fun r => .ok (0, r.2) := by
  have le : oldsz ≤ newsz := by
    by_contra less
    have := endPage_mono (show newsz ≤ oldsz by omega)
    omega
  obtain ⟨m, n, w, zero, filled, -, -, run⟩ :=
    allocuvm_prefix (u := u) (j := 0) le low (by omega) (fun w lo hi => by omega)
  obtain rfl : m = 0 := Nat.le_zero.mp zero
  have tables := filled.tables
  have list : w.kmem.freelist = u.kmem.freelist := filled.freelist
  rw [Nat.add_zero (endPage oldsz)] at run
  rw [run]
  cases free : w.kmem.freelist with
  | nil => exact ⟨w, filled.stuck, tables, by rw [allocuvmLoop_none (by omega) free]⟩
  | cons mem rest =>
    obtain rfl : rest = [] := by
      rw [← list, free, List.length_cons] at short
      exact List.length_eq_zero_iff.mp (by omega)
    have mine : mem ∈ u.kmem.freelist := filled.subset (by rw [free]; exact List.mem_cons_self)
    have empty : w.pgdir.entry (endPage oldsz) = none := by
      rw [filled.outside _ (by omega)]
      exact u.pgdir.entry_of_absent absent
    have none : w.pgdir.tab (endPage oldsz / NPTENTRIES) = none := by
      rw [← Option.not_isSome_iff_eq_none, ← tables]
      exact Option.not_isSome_iff_eq_none.mpr absent
    refine ⟨w.losePage mem, filled.stuck.losePage mine, tables, ?_⟩
    rw [allocuvmLoop_lose low (by omega) empty none free, allocuvmLoop_none more rfl]

end Blocked

/-- The integer size sz + n, and the pages that come or go with it. -/
structure Resized (s : Vm) (n : Int) (t : Vm) : Prop where
  size : (t.proc.sz : Int) = s.proc.sz + n
  user : t.proc.sz < KERNBASE
  grown : ∀ v, endPage s.proc.sz ≤ v → v < endPage t.proc.sz → (t.proc.pgdir.entry v).isSome
  shrunk : ∀ v, endPage t.proc.sz ≤ v → v < endPage s.proc.sz → t.proc.pgdir.entry v = none
  kept : ∀ v, (v < endPage s.proc.sz ↔ v < endPage t.proc.sz) →
    t.proc.pgdir.entry v = s.proc.pgdir.entry v

structure Untouched (s t : Vm) : Prop where
  size : t.proc.sz = s.proc.sz
  entry : t.proc.pgdir.entry = s.proc.pgdir.entry
  bytes : ∀ pa, pa ∉ s.kmem.freelist → t.kmem.mem pa = s.kmem.mem pa

structure ExactOrNothing (s : Vm) (n r : Int) (t : Vm) : Prop where
  zero : r = 0 ↔ Resized s n t
  failed : r ≠ 0 → r = -1 ∧ Untouched s t

/-- The sizes and address spaces for which growproc is exact or has no effect. -/
structure GrowprocFits (s : Vm) (n : Int) : Prop where
  same : n = 0 → s.proc.sz < KERNBASE
  grow : 0 < n → s.proc.sz + n < KERNBASE →
    (∀ v, endPage s.proc.sz ≤ v → v < endPage (brk s.proc n) → (s.proc.pgdir.entry v).isSome →
      s.kmem.freelist.length ≤ 1 ∧ Skipped s.proc.pgdir.tab (endPage s.proc.sz) v) ∧
    ¬ StarvesLast s.proc.pgdir.tab (endPage s.proc.sz) (growth s.proc.sz (brk s.proc n))
      s.kmem.freelist.length
  word : 0 < n → s.proc.sz + n < 2 ^ 32
  user : n < 0 → s.proc.sz ≤ KERNBASE
  below : s.proc.sz + n < 0 → s.proc.sz = 0
  empty : n < 0 → s.proc.sz + n = 0 → ∀ v, v < endPage s.proc.sz → s.proc.pgdir.entry v = none
  shrink : n < 0 → 0 < s.proc.sz + n → ∀ v e, endPage (brk s.proc n) ≤ v → v < endPage s.proc.sz →
    s.proc.pgdir.entry v = some e → Freeable s.kmem e.pa ∧ ¬ Skipped s.proc.pgdir.tab
      (endPage (brk s.proc n)) v

section Cases
variable {s t : Vm} {n r : Int}

theorem brk_inside (low : 0 ≤ s.proc.sz + n) (high : s.proc.sz + n < 2 ^ 32) :
    (brk s.proc n : Int) = s.proc.sz + n := by
  unfold brk
  rw [Int.emod_eq_of_lt low high, Int.toNat_of_nonneg low]

theorem ExactOrNothing.minus {t : Vm} (ne : n ≠ 0) (h : Untouched s t) :
    ExactOrNothing s n (-1) t where
  zero := by
    refine iff_of_false (by decide) fun resized => ne ?_
    have := resized.size
    rw [h.size] at this
    omega
  failed := fun _ => ⟨rfl, h⟩

theorem Untouched.refl (s : Vm) : Untouched s s := ⟨rfl, rfl, fun _ _ => rfl⟩

theorem growproc_same : (∃ r t, growproc s 0 = .ok (r, t) ∧ ExactOrNothing s 0 r t) ↔
    s.proc.sz < KERNBASE := by
  constructor
  · rintro ⟨r, t, done, promise⟩
    cases done
    exact (promise.zero.mp rfl).user
  · intro low
    refine ⟨0, s, rfl, iff_of_true rfl ?_, fun no => absurd rfl no⟩
    exact ⟨by omega, low, fun v _ _ => by omega, fun v _ _ => by omega, fun _ _ => rfl⟩

theorem growproc_below (int : -2 ^ 31 ≤ n) (low : s.proc.sz ≤ KERNBASE)
    (below : s.proc.sz + n < 0) :
    growproc s n = .ok (if s.proc.sz = 0 then (-1, s) else (0, s)) := by
  have wraps : s.proc.sz ≤ brk s.proc n := by
    unfold brk
    simp only [KERNBASE] at low
    omega
  unfold growproc deallocuvm
  rw [if_neg (by omega), if_pos (by omega), if_pos wraps, ok_bind]
  dsimp only
  split
  · rfl
  · rfl

/-- A sum that wraps around is less than the old size, which allocuvm returns. -/
theorem growproc_over (int : n < 2 ^ 31) (word : s.proc.sz < 2 ^ 32) (pos : 0 < n)
    (kernel : (KERNBASE : Int) ≤ s.proc.sz + n) :
    growproc s n = .ok (if s.proc.sz + n < 2 ^ 32 then (-1, s) else (0, s)) := by
  unfold growproc allocuvm
  rw [if_pos pos]
  by_cases inside : (s.proc.sz : Int) + n < 2 ^ 32
  · have size := brk_inside (s := s) (n := n) (by omega) inside
    rw [if_pos (by omega), if_pos inside]
    rfl
  · have size : (brk s.proc n : Int) = s.proc.sz + n - 2 ^ 32 := by
      unfold brk
      omega
    have low : brk s.proc n < KERNBASE := by
      simp only [KERNBASE]
      omega
    have old : s.proc.sz ≠ 0 := by omega
    rw [if_neg (by omega), if_pos (by omega), ok_bind, if_neg inside]
    dsimp only
    rw [if_neg old]
    rfl

/-- From above KERNBASE no shrink is exact: the first page of the kernel is in its range, and
deallocuvm panics at it or jumps over it. -/
theorem growproc_kernel (int : -2 ^ 31 ≤ n) (neg : n < 0) (high : KERNBASE < s.proc.sz)
    (word : s.proc.sz < 2 ^ 32) (kernel : s.proc.pgdir.KernelMapped) :
    ¬∃ r t, growproc s n = .ok (r, t) ∧ ExactOrNothing s n r t := by
  rintro ⟨r, t, done, promise⟩
  simp only [KERNBASE] at high
  have size := brk_inside (s := s) (n := n) (by omega) (by omega)
  unfold growproc deallocuvm at done
  rw [if_neg (by omega), if_pos neg, if_neg (by omega)] at done
  obtain ⟨⟨x, u⟩, freed, eq⟩ := bind_ok.mp done
  obtain ⟨w, loop, eq'⟩ := bind_ok.mp freed
  cases eq'
  dsimp only at eq
  rw [if_neg (by omega)] at eq
  cases eq
  have resized := promise.zero.mp rfl
  have inside : brk s.proc n < KERNBASE := resized.user
  have first : UPAGES < endPage s.proc.sz := by
    simp only [UPAGES, KERNBASE, PGSIZE, endPage]
    omega
  have new : endPage (brk s.proc n) ≤ UPAGES := by
    simp only [UPAGES, KERNBASE, PGSIZE, endPage] at inside ⊢
    omega
  have gone : u.pgdir.entry UPAGES = none := resized.shrunk UPAGES new first
  obtain ⟨e, there, zero⟩ := kernel UPAGES (Nat.le_refl _) (by decide)
  rcases deallocuvmLoop_entry loop UPAGES with same | ⟨-, f, here, pos⟩
  · rw [same, show s.uvm.pgdir.entry UPAGES = some e from there] at gone
    cases gone
  · cases there.symm.trans here
    exact pos (by rw [zero, Nat.sub_self])

def Vm.resize (s : Vm) (sz : Nat) (u : Uvm) : Vm :=
  { s with proc := { s.proc with sz := sz, pgdir := u.pgdir }, kmem := u.kmem }

theorem growproc_shrinks (neg : n < 0) (inside : 0 ≤ s.proc.sz + n) (low : s.proc.sz ≤ KERNBASE) :
    (AllFreeable s.uvm (endPage (brk s.proc n)) (endPage s.proc.sz) →
      ∃ u', Cleared s.uvm u' (endPage (brk s.proc n)) (endPage s.proc.sz) ∧ growproc s n =
        .ok (if brk s.proc n = 0 then (-1, s.setUvm u') else (0, s.resize (brk s.proc n) u'))) ∧
    (¬ AllFreeable s.uvm (endPage (brk s.proc n)) (endPage s.proc.sz) →
      growproc s n = .error .kfree) := by
  have size := brk_inside (s := s) (n := n) inside (by simp only [KERNBASE] at low; omega)
  obtain ⟨clears, stops⟩ :=
    deallocuvm_cleared (u := s.uvm) (show brk s.proc n < s.proc.sz by omega) low
  unfold growproc
  rw [if_neg (by omega), if_pos neg]
  constructor
  · intro all
    obtain ⟨u', done, cleared⟩ := clears all
    refine ⟨u', cleared, ?_⟩
    rw [done, ok_bind]
    rfl
  · intro some
    rw [stops some]
    rfl

theorem not_skipped_zero : ¬ Skipped tab (endPage 0) v := by
  rintro ⟨-, before, -⟩
  exact absurd before (Nat.not_lt_zero _)

theorem growproc_empty (neg : n < 0) (zero : s.proc.sz + n = 0) (low : s.proc.sz ≤ KERNBASE) :
    (∃ r t, growproc s n = .ok (r, t) ∧ ExactOrNothing s n r t) ↔
      ∀ v, v < endPage s.proc.sz → s.proc.pgdir.entry v = none := by
  have size := brk_inside (s := s) (n := n) (by omega) (by omega)
  have new : brk s.proc n = 0 := by omega
  obtain ⟨clears, stops⟩ := growproc_shrinks neg (by omega) low
  rw [new] at clears stops
  constructor
  · rintro ⟨r, t, done, promise⟩ v inside
    have all : AllFreeable s.uvm (endPage 0) (endPage s.proc.sz) := by
      by_contra some
      cases done.symm.trans (stops some)
    obtain ⟨u', cleared, result⟩ := clears all
    cases done.symm.trans result
    have same := congrFun (promise.failed (by decide)).2.entry v
    rw [← same]
    exact cleared.gone v (Nat.zero_le v) inside not_skipped_zero
  · intro none
    obtain ⟨u', done, entry, mem⟩ := deallocuvm_idle (x := s.uvm)
        (show brk s.proc n < s.proc.sz by omega) low
      fun v e _ inside there => by
        rw [show s.uvm.pgdir.entry v = .none from none v inside] at there
        cases there
    refine ⟨-1, s.setUvm u', ?_, .minus (by omega) ⟨rfl, entry, fun pa _ => congrFun mem pa⟩⟩
    unfold growproc
    rw [if_neg (by omega), if_pos neg, done, ok_bind, new]
    rfl

theorem growproc_shrink (neg : n < 0) (pos : 0 < s.proc.sz + n) (low : s.proc.sz ≤ KERNBASE) :
    (∃ r t, growproc s n = .ok (r, t) ∧ ExactOrNothing s n r t) ↔
      ∀ v e, endPage (brk s.proc n) ≤ v → v < endPage s.proc.sz → s.proc.pgdir.entry v = some e →
        Freeable s.kmem e.pa ∧ ¬ Skipped s.proc.pgdir.tab (endPage (brk s.proc n)) v := by
  have size := brk_inside (s := s) (n := n) (by omega) (by simp only [KERNBASE] at low; omega)
  have mono := endPage_mono (show brk s.proc n ≤ s.proc.sz by omega)
  obtain ⟨clears, stops⟩ := growproc_shrinks neg (by omega) low
  simp only [show brk s.proc n ≠ 0 by omega, if_false] at clears
  constructor
  · rintro ⟨r, t, done, promise⟩ v e from_ to_ there
    have all : AllFreeable s.uvm (endPage (brk s.proc n)) (endPage s.proc.sz) := by
      by_contra some
      cases done.symm.trans (stops some)
    obtain ⟨u', cleared, result⟩ := clears all
    cases done.symm.trans result
    have visited : ¬ Skipped s.proc.pgdir.tab (endPage (brk s.proc n)) v := by
      intro skipped
      have gone : u'.pgdir.entry v = none := (promise.zero.mp rfl).shrunk v from_ to_
      rw [cleared.kept v (.inr (.inr skipped))] at gone
      cases gone.symm.trans there
    exact ⟨all v e from_ to_ visited there, visited⟩
  · intro condition
    obtain ⟨u', cleared, result⟩ := clears fun v e from_ to_ _ there =>
        (condition v e from_ to_ there).1
    refine ⟨0, s.resize (brk s.proc n) u', result, iff_of_true rfl ?_, fun no => absurd rfl no⟩
    refine ⟨size, show brk s.proc n < KERNBASE by omega, fun v from_ to_ => ?_,
      fun v from_ to_ => ?_, fun v same => ?_⟩
    · have : v < endPage (brk s.proc n) := to_
      omega
    · by_cases skipped : Skipped s.proc.pgdir.tab (endPage (brk s.proc n)) v
      · have kept : u'.pgdir.entry v = s.proc.pgdir.entry v := cleared.kept v (.inr (.inr skipped))
        cases there : s.proc.pgdir.entry v with
        | none => exact kept.trans there
        | some e => exact absurd skipped (condition v e from_ to_ there).2
      · exact cleared.gone v from_ to_ skipped
    · have : v < endPage s.proc.sz ↔ v < endPage (brk s.proc n) := same
      exact cleared.kept v (by omega)

end Cases

section Grow
variable {s t : Vm} {n r : Int}

theorem growproc_grows (pos : 0 < n) :
    growproc s n = allocuvm s.uvm s.proc.sz (brk s.proc n) >>= fun r =>
      .ok (if r.1 = 0 then (-1, s.setUvm r.2) else (0, s.resize r.1 r.2)) := by
  unfold growproc
  rw [if_pos pos]
  rfl

theorem growproc_vacant (pos : 0 < n) (inside : s.proc.sz + n < KERNBASE)
    (listed : ∀ pa ∈ s.kmem.freelist, Freeable s.kmem pa)
    (vacant : ∀ v, endPage s.proc.sz ≤ v → v < endPage (brk s.proc n) →
      s.proc.pgdir.entry v = none) :
    (∃ r t, growproc s n = .ok (r, t) ∧ ExactOrNothing s n r t) ↔
      ¬ StarvesLast s.proc.pgdir.tab (endPage s.proc.sz) (growth s.proc.sz (brk s.proc n))
        s.kmem.freelist.length := by
  have size := brk_inside (s := s) (n := n) (by omega) (by simp only [KERNBASE] at inside; omega)
  have mono := endPage_mono (show s.proc.sz ≤ brk s.proc n by omega)
  have range : endPage s.proc.sz + growth s.proc.sz (brk s.proc n) = endPage (brk s.proc n) := by
    unfold growth
    omega
  have ends := allocuvm_ends (u := s.uvm) (show s.proc.sz ≤ brk s.proc n by omega) (by omega) vacant
  rw [growproc_grows pos]
  generalize result : allocuvm s.uvm s.proc.sz (brk s.proc n) = x at ends ⊢
  cases ends with
  | @full w enough filled =>
    rw [ok_bind, if_neg (by omega)]
    refine iff_of_true ⟨0, _, rfl, iff_of_true rfl ?_, fun no => absurd rfl no⟩
      (not_starvesLast enough)
    refine ⟨size, show brk s.proc n < KERNBASE by omega, fun v from_ to_ => ?_,
      fun v from_ to_ => ?_, fun v same => ?_⟩
    · obtain ⟨pa, -, there, -⟩ := filled.page v from_ (by rw [range]; exact to_)
      rw [show (s.resize (brk s.proc n) w).proc.pgdir.entry v = _ from there]
      rfl
    · have : endPage (brk s.proc n) ≤ v := from_
      omega
    · have : v < endPage s.proc.sz ↔ v < endPage (brk s.proc n) := same
      exact filled.outside v (by omega)
  | @starved w m mem eq free starves filled =>
    rw [ok_bind, if_neg (by omega)]
    refine iff_of_false ?_ (not_not.mpr starves)
    rintro ⟨r, t, done, promise⟩
    cases done
    have last : endPage s.proc.sz + m < endPage (brk s.proc n) := by omega
    have there : (w.pgdir.entry (endPage s.proc.sz + m)).isSome :=
        (promise.zero.mp rfl).grown _ (by omega) last
    rw [filled.outside _ (.inr (Nat.le_refl _)),
      show s.uvm.pgdir.entry _ = none from vacant _ (by omega) last] at there
    cases there
  | @failed x m less short fed stuck =>
    refine iff_of_true ?_ fed
    obtain ⟨back, restored⟩ :=
      stuck.rollback (show s.proc.sz < brk s.proc n by omega) (by omega) (by omega) vacant
    obtain ⟨r, done⟩ := back listed
    have same := restored r done
    rw [done, ok_bind, ok_bind]
    exact ⟨-1, _, rfl, .minus (by omega) ⟨rfl, same.entry, same.mem⟩⟩

/-- Pages of the range that were there before: the growth panics at the first of them, or
runs out of memory before it and gives up those that the rollback visits. -/
theorem growproc_blocked (pos : 0 < n) (inside : s.proc.sz + n < KERNBASE)
    (promised : ∃ r t, growproc s n = .ok (r, t) ∧ ExactOrNothing s n r t)
    (from_ : endPage s.proc.sz ≤ v) (to_ : v < endPage (brk s.proc n))
      (there : (s.proc.pgdir.entry v).isSome) :
    s.kmem.freelist.length ≤ 1 ∧ Skipped s.proc.pgdir.tab (endPage s.proc.sz) v := by
  have size := brk_inside (s := s) (n := n) (by omega) (by simp only [KERNBASE] at inside; omega)
  obtain ⟨q, ⟨low, high, here⟩, first⟩ : ∃ q, (endPage s.proc.sz ≤ q ∧ q < endPage (brk s.proc n) ∧
      (s.proc.pgdir.entry q).isSome) ∧ ∀ w, endPage s.proc.sz ≤ w → w < q →
        s.proc.pgdir.entry w = none := by
    have some : ∃ q, endPage s.proc.sz ≤ q ∧ q < endPage (brk s.proc n) ∧
        (s.proc.pgdir.entry q).isSome :=
      ⟨v, from_, to_, there⟩
    refine ⟨Nat.find some, Nat.find_spec some, fun w lo hi => ?_⟩
    by_contra filled
    have below := (Nat.find_spec some).2.1
    exact Nat.find_min some hi ⟨lo, by omega, Option.isSome_iff_ne_none.mpr filled⟩
  obtain ⟨r, t, done, promise⟩ := promised
  rw [growproc_grows pos] at done
  rcases allocuvm_blocked (u := s.uvm) (show brk s.proc n < KERNBASE by omega) low high
      here first with
    remap | ⟨x, m, stuck, upto, none, run⟩
  · rw [remap] at done
    cases done
  rw [run] at done
  obtain ⟨y, grown, eq⟩ := bind_ok.mp done
  obtain ⟨z, freed, eq'⟩ := bind_ok.mp grown
  cases eq'
  cases eq
  obtain ⟨clears, stops⟩ :=
    deallocuvm_cleared (u := x) (show s.proc.sz < brk s.proc n by omega) (by omega)
  have all : AllFreeable x (endPage s.proc.sz) (endPage (brk s.proc n)) := by
    by_contra some
    cases freed.symm.trans (stops some)
  obtain ⟨u', result, cleared⟩ := clears all
  cases freed.symm.trans result
  have same : u'.pgdir.entry = s.proc.pgdir.entry := (promise.failed (by decide)).2.entry
  have skipped : ∀ w, endPage s.proc.sz ≤ w → w < endPage (brk s.proc n) →
      (s.proc.pgdir.entry w).isSome →
      Skipped x.pgdir.tab (endPage s.proc.sz) w := by
    intro w lo hi present
    by_contra visited
    rw [← same, cleared.gone w lo hi visited] at present
    cases present
  have zero : m = 0 := by
    by_contra some
    exact not_skipped (stuck.table (by omega)) (skipped v from_ to_ there)
  obtain ⟨short, tables⟩ := none zero
  exact ⟨short, (skipped v from_ to_ there).congr tables⟩

/-- With at most one free page nothing is mapped, and the rollback jumps over the pages
that were there. -/
theorem growproc_jumps (pos : 0 < n) (inside : s.proc.sz + n < KERNBASE)
    (skipped : ∀ v, endPage s.proc.sz ≤ v → v < endPage (brk s.proc n) →
      (s.proc.pgdir.entry v).isSome →
      s.kmem.freelist.length ≤ 1 ∧ Skipped s.proc.pgdir.tab (endPage s.proc.sz) v)
    (from_ : endPage s.proc.sz ≤ v) (to_ : v < endPage (brk s.proc n))
    (there : (s.proc.pgdir.entry v).isSome) : ∃ r t, growproc s n = .ok (r, t) ∧
      ExactOrNothing s n r t := by
  have size := brk_inside (s := s) (n := n) (by omega) (by simp only [KERNBASE] at inside; omega)
  obtain ⟨short, later, before, absent⟩ := skipped v from_ to_ there
  have after := (skipped v from_ to_ there).2.after
  obtain ⟨x, stuck, tables, out⟩ := allocuvm_starts (u := s.uvm)
    (show brk s.proc n < KERNBASE by omega)
    (show endPage s.proc.sz + 1 < _ by omega) (absent _ later (Nat.le_refl _)) short
  obtain ⟨u', done, entry, mem⟩ := deallocuvm_idle (x := x)
    (show s.proc.sz < brk s.proc n by omega) (by omega)
    fun v e lo hi here => by
      rw [stuck.outside v (by omega)] at here
      exact (skipped v lo hi (by rw [show s.proc.pgdir.entry v = some e from here]; rfl)).2.congr
        tables
  rw [growproc_grows pos, out, done, ok_bind, ok_bind]
  refine ⟨-1, _, rfl, .minus (by omega) ⟨rfl, ?_, fun pa free => ?_⟩⟩
  · exact entry.trans (funext fun v => stuck.outside v (by omega))
  · exact (congrFun mem pa).trans (stuck.mem pa free)

theorem le_growthNeed (tab : Nat → Option Nat) (p m : Nat) : m ≤ growthNeed tab p m := by
  induction m with
  | zero => exact Nat.le_refl 0
  | succ m ih =>
    rw [growthNeed]
    omega

theorem Skipped.not_starvesLast {N free : Nat} (h : Skipped tab p v)
    (inside : v < p + N)
    (short : free ≤ 1) : ¬ StarvesLast tab p N free := by
  rintro ⟨-, -, one⟩
  have after := h.after
  have need := le_growthNeed tab p (N - 1)
  omega

theorem growproc_grow (pos : 0 < n) (inside : s.proc.sz + n < KERNBASE)
    (listed : ∀ pa ∈ s.kmem.freelist, Freeable s.kmem pa) :
    (∃ r t, growproc s n = .ok (r, t) ∧ ExactOrNothing s n r t) ↔
      (∀ v, endPage s.proc.sz ≤ v → v < endPage (brk s.proc n) → (s.proc.pgdir.entry v).isSome →
        s.kmem.freelist.length ≤ 1 ∧ Skipped s.proc.pgdir.tab (endPage s.proc.sz) v) ∧
      ¬ StarvesLast s.proc.pgdir.tab (endPage s.proc.sz) (growth s.proc.sz (brk s.proc n))
        s.kmem.freelist.length := by
  by_cases vacant : ∀ v, endPage s.proc.sz ≤ v → v < endPage (brk s.proc n) →
    s.proc.pgdir.entry v = none
  · rw [growproc_vacant pos inside listed vacant]
    refine (and_iff_right fun v from_ to_ there => ?_).symm
    rw [vacant v from_ to_] at there
    cases there
  · push Not at vacant
    obtain ⟨v, from_, to_, some⟩ := vacant
    have there := Option.isSome_iff_ne_none.mpr some
    constructor
    · intro promised
      refine ⟨fun w lo hi here => growproc_blocked pos inside promised lo hi here, ?_⟩
      obtain ⟨short, skipped⟩ := growproc_blocked pos inside promised from_ to_ there
      exact skipped.not_starvesLast (by unfold growth; omega) short
    · rintro ⟨skipped, -⟩
      exact growproc_jumps pos inside skipped from_ to_ there

end Grow

/-- For every int n, every size and every page directory: growproc is exact or has no effect
exactly where GrowprocFits says so. -/
theorem growproc_exact_or_nothing {s : Vm} {n : Int} (int : -2 ^ 31 ≤ n ∧ n < 2 ^ 31)
    (word : s.proc.sz < 2 ^ 32) (listed : ∀ pa ∈ s.kmem.freelist, Freeable s.kmem pa)
    (kernel : KERNBASE < s.proc.sz → s.proc.pgdir.KernelMapped) :
    (∃ r t, growproc s n = .ok (r, t) ∧ ExactOrNothing s n r t) ↔ GrowprocFits s n := by
  rcases lt_trichotomy n 0 with neg | rfl | pos
  · by_cases low : s.proc.sz ≤ KERNBASE
    · rcases lt_trichotomy ((s.proc.sz : Int) + n) 0 with below | zero | inside
      · rw [growproc_below int.1 low below]
        constructor
        · rintro ⟨r, t, done, promise⟩
          refine ⟨fun no => by omega, fun no => by omega, fun no => by omega, fun _ => low,
            fun _ => ?_, fun _ no => by omega, fun _ no => by omega⟩
          by_contra ne
          rw [if_neg ne] at done
          cases done
          have := (promise.zero.mp rfl).size
          omega
        · intro fits
          rw [if_pos (fits.below below)]
          exact ⟨-1, s, rfl, .minus (by omega) (.refl s)⟩
      · rw [growproc_empty neg zero low]
        exact ⟨fun none => ⟨fun no => by omega, fun no => by omega,
          fun no => by omega, fun _ => low,
          fun no => by omega, fun _ _ => none, fun _ no => by omega⟩,
            fun fits => fits.empty neg zero⟩
      · rw [growproc_shrink neg inside low]
        exact ⟨fun all => ⟨fun no => by omega, fun no => by omega, fun no => by omega, fun _ => low,
          fun no => by omega, fun _ no => by omega, fun _ _ => all⟩,
          fun fits => fits.shrink neg inside⟩
    · exact iff_of_false (growproc_kernel int.1 neg (by omega) word (kernel (by omega)))
        fun fits => low (fits.user neg)
  · rw [growproc_same]
    exact ⟨fun less => ⟨fun _ => less, fun no => by omega, fun no => by omega, fun no => by omega,
      fun no => by omega, fun no => by omega, fun no => by omega⟩, fun fits => fits.same rfl⟩
  · by_cases inside : (s.proc.sz : Int) + n < KERNBASE
    · rw [growproc_grow pos inside listed]
      simp only [KERNBASE] at inside
      exact ⟨fun both => ⟨fun no => by omega, fun _ _ => both, fun _ => by omega,
        fun no => by omega, fun no => by omega, fun no => by omega, fun no => by omega⟩,
        fun fits => fits.grow pos (by simpa only [KERNBASE] using inside)⟩
    · rw [growproc_over int.2 word pos (by omega)]
      constructor
      · rintro ⟨r, t, done, promise⟩
        refine ⟨fun no => by omega, fun _ no => absurd no inside, fun _ => ?_, fun no => by omega,
          fun no => by omega, fun no => by omega, fun no => by omega⟩
        by_contra wraps
        rw [if_neg wraps] at done
        cases done
        have := (promise.zero.mp rfl).size
        omega
      · intro fits
        rw [if_pos (fits.word pos)]
        exact ⟨-1, s, rfl, .minus (by omega) (.refl s)⟩

def onePageProc : Vm where
  proc := {
    sz := PGSIZE
    pgdir := {
      tab := fun i => if i = 0 then some 300 else none
      pte := fun v => if v = 0 then some (userPte 301) else none } }
  kmem := { freelist := [302] }

theorem onePageProc_entry (ne : v ≠ 0) : onePageProc.proc.pgdir.entry v = none := by
  unfold PgDir.entry
  split
  · exact if_neg ne
  · rfl

/-- One page more, from the free list. -/
theorem growproc_exact_or_nothing_onePageProc :
    ∃ r t, growproc onePageProc PGSIZE = .ok (r, t) ∧ ExactOrNothing onePageProc PGSIZE r t := by
  refine (growproc_exact_or_nothing (by decide) (by decide) (by decide)
    fun high => absurd high (by decide)).mpr ?_
  refine ⟨by decide, fun _ _ => ⟨fun v from_ _ there => ?_, by decide⟩, by decide, by decide,
    by decide, by decide, fun no => absurd no (by decide)⟩
  have absent : onePageProc.proc.pgdir.entry v = none := onePageProc_entry (by
    have start : endPage onePageProc.proc.sz = 1 := by decide
    omega)
  rw [absent] at there
  cases there

/-- A shrink to no page at all frees the page and reports a failure; one byte more, and
nothing changes and a success is reported. -/
theorem growproc_frees_and_fails :
    (∃ t, growproc onePageProc (-PGSIZE) = .ok (-1, t) ∧ t.proc.pgdir.entry 0 = none ∧
      ¬ ExactOrNothing onePageProc (-PGSIZE) (-1) t) ∧
    growproc onePageProc (-PGSIZE - 1) = .ok (0, onePageProc) ∧
    ¬ ExactOrNothing onePageProc (-PGSIZE - 1) 0 onePageProc := by
  constructor
  · have free : AllFreeable onePageProc.uvm (endPage (brk onePageProc.proc (-PGSIZE)))
      (endPage onePageProc.proc.sz) := by
      intro v e _ inside _ there
      have zero : v = 0 := by
        by_contra ne
        rw [show onePageProc.uvm.pgdir.entry v = none from onePageProc_entry ne] at there
        cases there
      subst zero
      cases there
      decide
    obtain ⟨u', cleared, result⟩ := (growproc_shrinks (by decide) (by decide) (by decide)).1 free
    have gone : u'.pgdir.entry 0 = none := cleared.gone 0 (by decide) (by decide) (by decide)
    refine ⟨_, result, gone, fun promise => ?_⟩
    have same : u'.pgdir.entry = onePageProc.proc.pgdir.entry :=
      (promise.failed (by decide)).2.entry
    rw [same] at gone
    cases gone
  · refine ⟨growproc_below (by decide) (by decide) (by decide), fun promise => ?_⟩
    have size := (promise.zero.mp rfl).size
    exact absurd size (by decide)

end MmapXv6
