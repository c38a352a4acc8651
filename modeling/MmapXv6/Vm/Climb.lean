import MmapXv6.Vm.Pointers
import MmapXv6.Vm.Dealloc

/-! How far a process can move sz upwards. A mapping of a short file moves it by a page
and costs no memory; sbrk moves it by as much as there is memory, and a later munmap of
a mapping further down gives that memory back and leaves sz where it is. -/
namespace MmapXv6

open Lib (bind_ok Reaches)
open Function (update update_of_ne update_self)

structure Touched (v : Nat) (s t : Vm) : Prop where
  sz : t.proc.sz = s.proc.sz
  ofile : t.proc.ofile = s.proc.ofile
  ommap : t.proc.ommap = s.proc.ommap
  fs : t.fs = s.fs
  tab : t.proc.pgdir.tab = s.proc.pgdir.tab
  free : t.kmem.freelist = s.kmem.freelist
  kend : t.kmem.kend = s.kmem.kend
  other : ∀ w, w ≠ v → t.entry w = s.entry w
  page : ∀ e, s.entry v = some e → ∃ d, t.entry v = some { e with dirty := d }

theorem Touched.refl (v : Nat) (s : Vm) : Touched v s s :=
  ⟨rfl, rfl, rfl, rfl, rfl, rfl, rfl, fun _ _ => rfl, fun e there => ⟨e.dirty, there⟩⟩

theorem Touched.fill {v : Nat} {s t : Vm} {e : Pte} (h : Touched v s t) (there : t.entry v = some e)
    (page : Lib.Bytes) : Touched v s (t.fill v e page) := by
  have entry := Vm.fill_entry there page
  refine ⟨h.sz, h.ofile, h.ommap, h.fs, h.tab, h.free, h.kend, fun w ne => ?_, fun e' old => ?_⟩
  · rw [entry, update_of_ne ne, h.other w ne]
  · obtain ⟨d, now⟩ := h.page e' old
    rw [there] at now
    cases now
    exact ⟨true, by rw [entry, update_self]⟩

theorem store_resident {s : Vm} {a : Nat} {e : Pte} (there : s.entry (a / PGSIZE) = some e)
    (writable : e.writable = true) (b : UInt8) :
    ∃ page, s.store a b false = .ok (true, s.fill (a / PGSIZE) e page) := by
  have admitted : s.admits a true false = some e := by
    simp [Vm.admits, there, Pte.admits, writable, Option.filter]
  refine ⟨update (s.kmem.mem e.pa) (a % PGSIZE) b, ?_⟩
  unfold Vm.store Vm.access
  rw [admitted]
  rfl

theorem storeWord_resident {s : Vm} {v addr w : Nat} {e : Pte} (there : s.entry v = some e)
    (writable : e.writable = true) (low : v * PGSIZE ≤ addr) (high : addr + 4 ≤ v * PGSIZE + PGSIZE)
    (word : addr + 4 ≤ 2 ^ 32) : ∃ t, s.storeWord addr w = .ok t ∧ Touched v s t := by
  apply Lib.foldlM_keeps (Touched v s) _ _ s (.refl v s)
  intro t p member touched
  obtain ⟨j, inside, rfl⟩ := List.mem_map.mp member
  have below : j < 4 := List.mem_range.mp inside
  have page : (addr + j) % 2 ^ 32 / PGSIZE = v := by
    simp only [PGSIZE] at low high ⊢
    omega
  obtain ⟨d, now⟩ := touched.page e there
  obtain ⟨bytes, stored⟩ := store_resident (a := (addr + j) % 2 ^ 32) (by rw [page]; exact now)
    (by exact writable) (UInt8.ofNat (w / 2 ^ (8 * j)))
  refine ⟨_, ?_, touched.fill now bytes⟩
  unfold Vm.put
  rw [stored, page]
  rfl

theorem need_le {n d : Nat} (D : PgDir) :
    D.need (n * PGSIZE) ((n + d) * PGSIZE) ≤ d + d / 1024 + 2 := by
  have table : D.tableNeed (n * PGSIZE) ≤ 1 := by
    unfold PgDir.tableNeed
    split <;> omega
  unfold PgDir.need
  generalize D.tableNeed (n * PGSIZE) = x at table ⊢
  split
  · unfold PDX
    simp only [PGSIZE, NPTENTRIES]
    omega
  · omega

theorem growproc_room {s : Vm} {n d : Nat} (size : s.proc.sz = n * PGSIZE)
    (above : ∀ v, n ≤ v → v < UPAGES → s.entry v = none) (pos : 0 < d)
    (fits : (n + d) * PGSIZE < KERNBASE) (room : d + d / 1024 + 2 ≤ s.kmem.freelist.length) :
    ∃ u, allocuvm s.uvm (n * PGSIZE) ((n + d) * PGSIZE) = .ok ((n + d) * PGSIZE, u) ∧
      Covers s.uvm u (n * PGSIZE) ((n + d) * PGSIZE) ∧
      s.kmem.freelist.length ≤ u.kmem.freelist.length + (d + d / 1024 + 2) ∧
      growproc s (d * PGSIZE : Nat) = .ok (0, { s with
        proc := { s.proc with sz := (n + d) * PGSIZE, pgdir := u.pgdir }, kmem := u.kmem }) := by
  have need := need_le (n := n) (d := d) s.proc.pgdir
  have top : brk s.proc (d * PGSIZE : Nat) = (n + d) * PGSIZE := by
    unfold brk
    rw [size]
    simp only [PGSIZE, KERNBASE] at fits ⊢
    omega
  have start : PGROUNDUP (n * PGSIZE) = n * PGSIZE :=
    PGROUNDUP_aligned (Nat.mul_mod_left _ _) (by simp only [PGSIZE] at fits ⊢; omega)
  have returned : ∃ u, allocuvmLoop (NPAGES + 1) s.uvm (n * PGSIZE) (n * PGSIZE)
      ((n + d) * PGSIZE) = .ok ((n + d) * PGSIZE, u) := by
    refine allocuvmLoop_returns fits (Nat.mul_mod_left _ _) (need.trans room)
      (fun v low high => ?_) ?_
    · refine above v (by simp only [PGSIZE] at low; omega) ?_
      simp only [PGSIZE, UPAGES, KERNBASE] at high fits ⊢
      omega
    · simp only [PGSIZE, NPAGES, NPDENTRIES, NPTENTRIES, KERNBASE] at fits ⊢
      omega
  obtain ⟨u, loop⟩ := returned
  obtain ⟨-, covers⟩ := allocuvmLoop_room fits (Nat.mul_mod_left _ _) (need.trans room) loop
  have grown : allocuvm s.uvm (n * PGSIZE) ((n + d) * PGSIZE) = .ok ((n + d) * PGSIZE, u) := by
    rw [allocuvm, if_neg (by omega), if_neg (by simp only [PGSIZE]; omega), start, loop]
  have nonzero : (n + d) * PGSIZE ≠ 0 := by
    simp only [PGSIZE]
    omega
  refine ⟨u, grown, covers, ?_, ?_⟩
  · have free := covers.free
    change s.kmem.freelist.length ≤ u.kmem.freelist.length + s.proc.pgdir.need _ _ at free
    omega
  · unfold growproc
    dsimp only
    rw [if_pos (by simp only [PGSIZE]; omega), top, size, grown]
    dsimp only [Lib.ok_bind]
    rw [if_neg nonzero]

theorem Uvm.Owned.freeable {u : Uvm} {p q : Nat} (owned : u.Owned) (user : q ≤ UPAGES) :
    AllFreeable u p q := by
  intro v e _ high _ there
  have zero := owned.zero
  have legal := owned.user v (by omega) e there
  exact ⟨by omega, legal⟩

theorem Cleared.owned {u u' : Uvm} {p q : Nat} (h : Cleared u u' p q) (owned : u.Owned)
    (user : q ≤ UPAGES) : u'.Owned := by
  have before : ∀ v e, u'.pgdir.entry v = some e → u.pgdir.entry v = some e := by
    intro v e there
    by_cases out : v < p ∨ q ≤ v ∨ Skipped u.pgdir.tab p v
    · rw [← h.kept v out, there]
    · push Not at out
      rw [h.gone v out.1 out.2.1 out.2.2] at there
      cases there
  refine ⟨h.kend ▸ owned.zero, fun f free => ?_, fun v low e there => ?_⟩
  · rw [h.kend]
    rw [h.freelist, List.mem_append, List.mem_reverse] at free
    rcases free with freed | old
    · obtain ⟨v, range, visited⟩ := List.mem_filterMap.mp freed
      obtain ⟨low, high⟩ := List.mem_range'_1.mp range
      unfold visitPage at visited
      split at visited
      · cases visited
      · obtain ⟨e, there, rfl⟩ := Option.map_eq_some_iff.mp visited
        exact owned.user v (by omega) e there
    · exact owned.free f old
  · rw [h.kend]
    exact owned.user v low e (before v e there)

theorem le_passed {d : PgDir} {p q lo top : Nat} (order : p ≤ lo) (inside : top ≤ q)
    (table : (d.tab (p / NPTENTRIES)).isSome) (full : ∀ v, lo ≤ v → v < top → (d.entry v).isSome) :
    top - lo ≤ (passed d p q).length := by
  by_cases some : lo ≤ top
  · have parts : List.range' p (q - p) =
        List.range' p (lo - p) ++ (List.range' lo (top - lo) ++ List.range' top (q - top)) := by
      have upper := List.range'_append_1 (s := lo) (m := top - lo) (n := q - top)
      have lower := List.range'_append_1 (s := p) (m := lo - p) (n := top - lo + (q - top))
      rw [Nat.add_sub_cancel' some] at upper
      rw [Nat.add_sub_cancel' order, ← upper] at lower
      rw [lower]
      congr 1
      omega
    have all : ((List.range' lo (top - lo)).filterMap (visitPage d p)).length = top - lo := by
      rw [List.filterMap_length_eq_length.mpr, List.length_range']
      intro v range
      obtain ⟨low, high⟩ := List.mem_range'_1.mp range
      simpa [visitPage_of_table table] using full v low (by omega)
    unfold passed
    simp only [parts, List.filterMap_append, List.length_append, all]
    omega
  · omega

/-- A process with a file of 100 bytes open as descriptor 0 and a page for results at
0x9000, whose size is n pages. -/
structure Climber (s : Vm) (n : Nat) : Prop where
  size : s.proc.sz = n * PGSIZE
  stack : 10 ≤ n
  opened : openFile s.proc 0 = some 0
  inode : (s.fs.file 0).ip = some 0
  length : (s.fs.inode 0).size = 100
  result : ∃ e, s.entry 9 = some e ∧ e.writable = true
  owned : s.uvm.Owned

namespace Climber
variable {s : Vm} {n m d : Nat} {i : Fin MAXMAPPEDFILES}

theorem touched {t : Vm} (c : Climber s n) (h : Touched 9 s t) : Climber t n := by
  obtain ⟨e, there, writable⟩ := c.result
  obtain ⟨d, now⟩ := h.page e there
  refine ⟨by rw [h.sz]; exact c.size, c.stack, by unfold openFile; rw [h.ofile]; exact c.opened,
    by rw [h.fs]; exact c.inode, by rw [h.fs]; exact c.length, ⟨_, now, writable⟩, ?_⟩
  refine ⟨?_, ?_, fun v user e' found => ?_⟩
  · change 0 < t.kmem.kend
    rw [h.kend]
    exact c.owned.zero
  · change ∀ f ∈ t.kmem.freelist, t.kmem.kend ≤ f ∧ _
    rw [h.free, h.kend]
    exact c.owned.free
  · change t.kmem.kend ≤ _ ∧ _
    rw [h.kend]
    by_cases page : v = 9
    · subst page
      change t.entry 9 = some e' at found
      rw [now] at found
      cases found
      exact c.owned.user 9 user e there
    · apply c.owned.user v user e'
      change s.entry v = some e'
      rw [← h.other v page]
      exact found

theorem mmap (c : Climber s n) (slot : freeMmap s.proc.ommap = some i) (fits : n < 2 ^ 20 - 1) :
    ∃ t, spaceStep s (.mmap 0 0x9FF0) = .ok t ∧ Climber t (n + 1) ∧
      t.proc.ommap = update s.proc.ommap i ⟨some 0, n * PGSIZE, 100⟩ ∧
      Touched 9 (s.addMmap i 0 100) t := by
  have size := c.size
  have start : Climber (s.addMmap i 0 100) (n + 1) := by
    refine ⟨?_, by have := c.stack; omega, c.opened, c.inode, c.length, c.result, c.owned⟩
    rw [addMmap_sz (by rw [size]; simp only [PGSIZE]; omega), size]
    simp only [PGSIZE]
    omega
  obtain ⟨e, there, writable⟩ := c.result
  obtain ⟨t, stored, touched⟩ := storeWord_resident (s := s.addMmap i 0 100) (w := s.proc.sz)
    there writable (show 9 * PGSIZE ≤ 0x9FF0 by decide) (by decide) (by decide)
  refine ⟨t, ?_, start.touched touched, ?_, touched⟩
  · have mapped : MmapXv6.mmap s 0 0x9FF0 = .ok (0, t) := by
      unfold MmapXv6.mmap
      rw [c.opened]
      rw [slot]
      dsimp only
      rw [c.inode]
      dsimp only
      rw [c.length, stored]
      rfl
    change (do Except.ok (← MmapXv6.mmap s 0 0x9FF0).2) = _
    rw [mapped]
    rfl
  · rw [touched.ommap]
    change update s.proc.ommap i ⟨some 0, s.proc.sz, 100⟩ = _
    rw [size]

theorem sbrk (c : Climber s n) (above : ∀ v, n ≤ v → v < UPAGES → s.entry v = none) (pos : 0 < d)
    (fits : (n + d) * PGSIZE < KERNBASE) (room : d + d / 1024 + 2 ≤ s.kmem.freelist.length) :
    ∃ t, spaceStep s (.sbrk (d * PGSIZE : Nat)) = .ok t ∧ Climber t (n + d) ∧
      t.proc.ommap = s.proc.ommap ∧ Covers s.uvm t.uvm (n * PGSIZE) ((n + d) * PGSIZE) ∧
      s.kmem.freelist.length ≤ t.kmem.freelist.length + (d + d / 1024 + 2) := by
  obtain ⟨u, -, covers, free, done⟩ := growproc_room c.size above pos fits room
  obtain ⟨e, there, writable⟩ := c.result
  have stack := c.stack
  have below : 9 * PGSIZE < n * PGSIZE := Nat.mul_lt_mul_of_pos_right stack (by decide)
  have page : u.pgdir.entry 9 = some e := (covers.outside 9 (.inl below)).trans there
  refine ⟨{ s with
    proc := { s.proc with sz := (n + d) * PGSIZE, pgdir := u.pgdir }, kmem := u.kmem }, ?_,
    ⟨rfl, by omega, c.opened, c.inode, c.length, ⟨e, page, writable⟩,
    covers.owned c.owned⟩, rfl, covers, free⟩
  change (do Except.ok (← growproc s (d * PGSIZE : Nat)).2) = _
  rw [done]
  rfl

/-- munmap of a mapping whose page was never touched. It frees every page from there to
twice its address, here the pages from lo to top. -/
theorem munmap (lo top : Nat) (c : Climber s n) (slot : s.proc.ommap i = ⟨some 0, m * PGSIZE, 100⟩)
    (found : mappingAt s.proc.ommap (m * PGSIZE) = some i) (stack : 10 ≤ m)
    (user : 2 * (m * PGSIZE) + 100 ≤ KERNBASE) (order : m ≤ lo) (twice : top ≤ 2 * m)
    (untouched : s.entry m = none)
    (tables : ∀ v, m ≤ v → v < top → (s.proc.pgdir.tab (v / NPTENTRIES)).isSome)
    (full : ∀ v, lo ≤ v → v < top → (s.entry v).isSome)
    (absent : ∀ v, top ≤ v → v < UPAGES → s.entry v = none) :
    ∃ t, spaceStep s (.munmap (m * PGSIZE)) = .ok t ∧ Climber t n ∧
      t.proc.ommap = update s.proc.ommap i ⟨none, 0, 100⟩ ∧
      (∀ v, m ≤ v → v < UPAGES → t.entry v = none) ∧ (∀ v, v < m → t.entry v = s.entry v) ∧
      t.proc.pgdir.tab = s.proc.pgdir.tab ∧
      s.kmem.freelist.length + (top - lo) ≤ t.kmem.freelist.length := by
  have freed : top * PGSIZE ≤ 2 * (m * PGSIZE) + 100 := by
    simp only [PGSIZE]
    omega
  have word : 2 * (m * PGSIZE) + 100 < 2 ^ 32 := user.trans_lt (by decide)
  have size : (m * PGSIZE + 100) % 2 ^ 32 = m * PGSIZE + 100 := Nat.mod_eq_of_lt (by omega)
  have twice' : (m * PGSIZE + (m * PGSIZE + 100)) % 2 ^ 32 = 2 * (m * PGSIZE) + 100 := by
    rw [Nat.mod_eq_of_lt (by omega)]
    omega
  have below : m * PGSIZE ≤ KERNBASE :=
    (Nat.le_mul_of_pos_left _ (by decide)).trans ((Nat.le_add_right _ _).trans user)
  have start : PGROUNDUP (m * PGSIZE) = m * PGSIZE := PGROUNDUP_aligned (Nat.mul_mod_left _ _) below
  have page : m * PGSIZE / PGSIZE = m := Nat.mul_div_cancel m (by decide)
  have clean : writeback s 0 (m * PGSIZE) (m * PGSIZE) = .ok s := by
    unfold writeback pgflags
    rw [page, show s.proc.pgdir.entry m = none from untouched]
    rfl
  have next : (m * PGSIZE + PGSIZE) % 2 ^ 32 = m * PGSIZE + PGSIZE := by
    apply Nat.mod_eq_of_lt
    simp only [PGSIZE] at word ⊢
    omega
  have written : writebackLoop 0 (m * PGSIZE) (m * PGSIZE + 100) (NPAGES + 1) s
      (m * PGSIZE) = .ok s := by
    rw [writebackLoop, if_pos (by omega), clean, Lib.ok_bind, next,
      show NPAGES = 1048575 + 1 by decide, writebackLoop, if_neg (by simp only [PGSIZE]; omega)]
  have pages : endPage (2 * (m * PGSIZE) + 100) ≤ UPAGES := endPage_le user
  have first : endPage (m * PGSIZE) = m := endPage_mul m
  have last : top ≤ endPage (2 * (m * PGSIZE) + 100) := by
    exact (Nat.le_div_iff_mul_le (by decide)).mpr (freed.trans (Nat.le_add_right _ _))
  have grows : m * PGSIZE < 2 * (m * PGSIZE) + 100 := by omega
  obtain ⟨u, loop, clears⟩ :=
    (deallocuvm_cleared (u := s.uvm) grows user).1 (c.owned.freeable pages)
  rw [first] at clears
  have unmapped : unmappages s.uvm (m * PGSIZE) (m * PGSIZE + 100) =
      .ok (Lib.toInt (m * PGSIZE), u) := by
    unfold unmappages
    rw [twice', loop, Lib.ok_bind]
    dsimp only
    rw [if_neg (by simp only [PGSIZE]; omega)]
  have done : munmapAt s i 0 = .ok ((s.setUvm u).dropMmap i) := by
    unfold munmapAt
    rw [slot]
    dsimp only
    rw [size, written, Lib.ok_bind, unmapped, Lib.ok_bind]
  have gone : ∀ v, m ≤ v → v < UPAGES → u.pgdir.entry v = none := by
    intro v low below
    by_cases out : endPage (2 * (m * PGSIZE) + 100) ≤ v ∨ Skipped s.uvm.pgdir.tab m v
    · rw [clears.kept v (.inr out)]
      refine absent v ?_ below
      by_contra before
      rcases out with past | skipped
      · omega
      · exact not_skipped (tables m (Nat.le_refl m) (by omega)) skipped
    · push Not at out
      exact clears.gone v low out.1 out.2
  have kept : ∀ v, v < m → u.pgdir.entry v = s.entry v := fun v low => clears.kept v (.inl low)
  obtain ⟨e, there, writable⟩ := c.result
  refine ⟨(s.setUvm u).dropMmap i, ?_, ⟨c.size, c.stack, c.opened, c.inode, c.length,
    ⟨e, (kept 9 (by omega)).trans there, writable⟩, clears.owned c.owned pages⟩, ?_, gone, kept,
    clears.tab, ?_⟩
  · change (do Except.ok (← MmapXv6.munmap s (m * PGSIZE)).2) = _
    unfold MmapXv6.munmap
    rw [found]
    dsimp only
    rw [slot]
    dsimp only
    rw [done]
    rfl
  · change update s.proc.ommap i { s.proc.ommap i with pfile := none, va := 0 } = _
    rw [slot]
  · have free : u.kmem.freelist.length = _ := congrArg List.length clears.freelist
    rw [List.length_append, List.length_reverse] at free
    change _ ≤ u.kmem.freelist.length
    rw [free, Nat.add_comm]
    refine Nat.add_le_add_right ?_ _
    by_cases none : top ≤ lo
    · omega
    · exact le_passed order last (tables m (Nat.le_refl m) (by omega)) full

end Climber

/-- The entries from lo to hi of the table map one page each, one after another from page
N on, and the others are free. -/
def Slots (o : Fin MAXMAPPEDFILES → Mmap) (N lo hi : Nat) : Prop :=
  ∀ i, (lo ≤ i.val ∧ i.val < hi → o i = ⟨some 0, (N + i.val) * PGSIZE, 100⟩) ∧
    (i.val < lo ∨ hi ≤ i.val → (o i).pfile = none)

theorem find?_finRange {p : Fin n → Bool} {i : Fin n} (here : p i = true)
    (before : ∀ j, j < i → p j = false) : (List.finRange n).find? p = some i := by
  refine List.find?_eq_some_iff_getElem.mpr ⟨here, i.val, by simp, by simp, fun j less => ?_⟩
  rw [List.getElem_finRange, before _ less]
  rfl

namespace Slots
variable {o : Fin MAXMAPPEDFILES → Mmap} {N k hi : Nat}

theorem free (h : Slots o N 0 k) (lt : k < MAXMAPPEDFILES) : freeMmap o = some ⟨k, lt⟩ := by
  apply find?_finRange
  · simp [(h ⟨k, lt⟩).2 (.inr (le_refl k))]
  · intro j less
    simp [(h j).1 ⟨Nat.zero_le _, less⟩]

theorem found (h : Slots o N k hi) (lt : k < hi) (le : hi ≤ MAXMAPPEDFILES) (pos : 0 < N) :
    mappingAt o ((N + k) * PGSIZE) = some ⟨k, by omega⟩ := by
  apply find?_finRange
  · have nonzero : (N + k) * PGSIZE ≠ 0 := Nat.mul_ne_zero (by omega) (by decide)
    simp [(h ⟨k, by omega⟩).1 ⟨le_refl k, lt⟩, nonzero]
  · intro j less
    simp [(h j).2 (.inl less)]

theorem add (h : Slots o N 0 k) (lt : k < MAXMAPPEDFILES) :
    Slots (update o ⟨k, lt⟩ ⟨some 0, (N + k) * PGSIZE, 100⟩) N 0 (k + 1) := by
  intro i
  by_cases here : i = ⟨k, lt⟩
  · subst here
    rw [update_self]
    exact ⟨fun _ => rfl, fun out => absurd out (by dsimp only; omega)⟩
  · have ne : i.val ≠ k := fun eq => here (Fin.ext eq)
    rw [update_of_ne here]
    exact ⟨fun inside => (h i).1 (by omega), fun out => (h i).2 (by omega)⟩

theorem drop (h : Slots o N k hi) (lt : k < MAXMAPPEDFILES) :
    Slots (update o ⟨k, lt⟩ ⟨none, 0, 100⟩) N (k + 1) hi := by
  intro i
  by_cases here : i = ⟨k, lt⟩
  · subst here
    rw [update_self]
    exact ⟨fun inside => absurd inside (by dsimp only; omega), fun _ => rfl⟩
  · have ne : i.val ≠ k := fun eq => here (Fin.ext eq)
    rw [update_of_ne here]
    exact ⟨fun inside => (h i).1 (by omega), fun out => (h i).2 (by omega)⟩

end Slots

/-- A point of the climb: the run so far, the pages above the stack all gone, the table of
mappings, and how much memory is free. -/
structure Stage (s : Vm) (n N lo hi room : Nat) : Prop extends Climber s n where
  run : Reaches spaceStep (fun _ a => a.Legal) Started s
  bare : ∀ v, 10 ≤ v → v < UPAGES → s.entry v = none
  slots : Slots s.proc.ommap N lo hi
  free : room ≤ s.kmem.freelist.length

namespace Stage
variable {s : Vm} {n N k room d : Nat}

theorem push (h : Stage s (N + k) N 0 k room) (lt : k < MAXMAPPEDFILES)
    (fits : N + k < 2 ^ 20 - 1) : ∃ t, Stage t (N + k + 1) N 0 (k + 1) room := by
  obtain ⟨t, done, climber, ommap, touched⟩ := h.mmap (h.slots.free lt) fits
  have legal : (SpaceAct.mmap 0 0x9FF0).Legal := by decide
  refine ⟨t, climber, h.run.step legal done, fun v low user => ?_, ?_, ?_⟩
  · rw [touched.other v (by omega)]
    exact h.bare v low user
  · rw [ommap]
    exact h.slots.add lt
  · rw [touched.free]
    exact h.free

theorem pushes (h : Stage s N N 0 0 room) (fits : N + MAXMAPPEDFILES < 2 ^ 20) (k : Nat)
    (le : k ≤ MAXMAPPEDFILES) : ∃ t, Stage t (N + k) N 0 k room := by
  induction k with
  | zero => exact ⟨s, h⟩
  | succ k ih =>
    obtain ⟨t, pushed⟩ := ih (by omega)
    exact pushed.push (by omega) (by omega)

theorem weaken {lo hi less : Nat} (h : Stage s n N lo hi room) (le : less ≤ room) :
    Stage s n N lo hi less :=
  ⟨h.toClimber, h.run, h.bare, h.slots, le.trans h.free⟩

theorem cycle (h : Stage s n n 0 0 room) (user : 2 * (n * PGSIZE) + 100 ≤ KERNBASE) :
    ∃ t, Stage t (n + 1) (n + 1) 0 0 room := by
  have small : n < 2 ^ 20 - 1 := by
    simp only [PGSIZE, KERNBASE] at user
    omega
  obtain ⟨t, mapped⟩ := h.push (k := 0) (by decide) small
  have stack := h.stack
  obtain ⟨w, done, climber, ommap, gone, kept, -, free⟩ := mapped.munmap (m := n) n n
    ((mapped.slots 0).1 (by decide)) (mapped.slots.found (by decide) (by decide) (by omega)) stack
    user (le_refl n) (by omega) (mapped.bare n stack (by
      simp only [PGSIZE, KERNBASE, UPAGES] at user ⊢
      omega)) (fun v low high => absurd high (by omega)) (fun v low high => absurd high (by omega))
    (fun v low => mapped.bare v (by omega))
  have legal : (SpaceAct.munmap (n * PGSIZE)).Legal := by
    change n * PGSIZE < 2 ^ 32
    simp only [PGSIZE, KERNBASE] at user ⊢
    omega
  have dropped := mapped.slots.drop (show 0 < MAXMAPPEDFILES by decide)
  rw [show (⟨0, by decide⟩ : Fin MAXMAPPEDFILES) = 0 from rfl, ← ommap] at dropped
  refine ⟨w, climber, mapped.run.step legal done, fun v low user => ?_, fun i => ?_, ?_⟩
  · by_cases above : n ≤ v
    · exact gone v above user
    · rw [kept v (by omega)]
      exact mapped.bare v low user
  · exact ⟨fun inside => absurd inside (by omega), fun _ => (dropped i).2 (by omega)⟩
  · have := mapped.free
    omega

theorem cycles (h : Stage s n n 0 0 room) (j : Nat)
    (user : 2 * ((n + j) * PGSIZE) + 100 ≤ KERNBASE) : ∃ t, Stage t (n + j) (n + j) 0 0 room := by
  induction j with
  | zero => exact ⟨s, h⟩
  | succ j ih =>
    have fewer : (n + j) * PGSIZE ≤ (n + (j + 1)) * PGSIZE := Nat.mul_le_mul_right _ (by omega)
    have less : 2 * ((n + j) * PGSIZE) + 100 ≤ KERNBASE :=
      (Nat.add_le_add_right (Nat.mul_le_mul_left 2 fewer) 100).trans user
    obtain ⟨t, climbed⟩ := ih less
    exact climbed.cycle less

def Tabled (s : Vm) (N n : Nat) : Prop :=
  ∀ v, N ≤ v → v < n → (s.proc.pgdir.tab (v / NPTENTRIES)).isSome ∨ v / NPTENTRIES = n / NPTENTRIES

theorem lap (h : Stage s n N k MAXMAPPEDFILES (room + (d / 1024 + 2))) (tabled : Tabled s N n)
    (lt : k < MAXMAPPEDFILES) (pos : 0 < d) (small : d < 2 ^ 19) (below : N + k < n)
    (reach : n + d ≤ 2 * (N + k)) (user : 2 * ((N + k) * PGSIZE) + 100 ≤ KERNBASE)
    (stack : 10 ≤ N) (enough : d ≤ room) :
    ∃ t, Stage t (n + d) N (k + 1) MAXMAPPEDFILES room ∧ Tabled t N (n + d) := by
  have fits : (n + d) * PGSIZE < KERNBASE := by
    have := Nat.mul_le_mul_right PGSIZE reach
    rw [Nat.mul_assoc] at this
    exact (this.trans (Nat.le_add_right _ 99)).trans_lt user
  have legal : (SpaceAct.sbrk (d * PGSIZE : Nat)).Legal := by
    change -2 ^ 31 ≤ ((d * PGSIZE : Nat) : Int) ∧ ((d * PGSIZE : Nat) : Int) < 2 ^ 31
    simp only [PGSIZE]
    omega
  have legal' : (SpaceAct.munmap ((N + k) * PGSIZE)).Legal :=
    ((Nat.le_mul_of_pos_left _ (by decide)).trans ((Nat.le_add_right _ _).trans user)).trans_lt
      (by decide)
  have kernel : N + k < UPAGES := by
    simp only [UPAGES, PGSIZE, KERNBASE] at user ⊢
    omega
  obtain ⟨t, grown, climber, ommap, covers, taken⟩ := h.sbrk (d := d)
    (fun v low => h.bare v (by have := h.stack; omega)) pos fits (by have := h.free; omega)
  have outside : ∀ v, v < n ∨ n + d ≤ v → t.entry v = s.entry v := by
    intro v out
    exact covers.outside v (out.imp (fun lt => Nat.mul_lt_mul_of_pos_right lt (by decide))
      fun le => Nat.mul_le_mul_right _ le)
  have inside : ∀ v, n ≤ v → v < n + d → (t.entry v).isSome := by
    intro v low high
    exact covers.range v (Nat.mul_le_mul_right _ low) (Nat.mul_lt_mul_of_pos_right high (by decide))
  have tables : ∀ v, N ≤ v → v < n + d → (t.proc.pgdir.tab (v / NPTENTRIES)).isSome := by
    have table : ∀ v, (t.entry v).isSome → (t.proc.pgdir.tab (v / NPTENTRIES)).isSome := by
      intro v there
      obtain ⟨e, found⟩ := Option.isSome_iff_exists.mp there
      exact PgDir.table_of_entry found
    intro v low high
    by_cases old : v < n
    · rcases tabled v low old with there | same
      · exact covers.tables _ there
      · rw [same]
        exact table n (inside n (le_refl n) (by omega))
    · exact table v (inside v (by omega) high)
  have slots : Slots t.proc.ommap N k MAXMAPPEDFILES := ommap ▸ h.slots
  obtain ⟨w, freed, climber', ommap', gone, kept, tab, given⟩ := climber.munmap
    (m := N + k) n (n + d)
    ((slots ⟨k, lt⟩).1 ⟨le_refl k, lt⟩) (slots.found lt (le_refl _) (by omega)) (by omega)
    user (by omega) reach (by rw [outside _ (.inl below)]; exact h.bare _ (by omega) kernel)
    (fun v low => tables v (by omega)) inside
    (fun v low user => by rw [outside v (.inr low)]; exact h.bare v (by omega) user)
  refine ⟨w, ⟨climber', (h.run.step legal grown).step legal' freed, fun v low user => ?_, ?_, ?_⟩,
    ?_⟩
  · by_cases above : N + k ≤ v
    · exact gone v above user
    · rw [kept v (by omega), outside v (.inl (by omega))]
      exact h.bare v low user
  · rw [ommap']
    exact slots.drop lt
  · have := h.free
    omega
  · intro v low high
    rw [tab]
    exact .inl (tables v low high)

theorem laps (h : Stage s n N 0 MAXMAPPEDFILES (room + MAXMAPPEDFILES * (d / 1024 + 2)))
    (tabled : Tabled s N n) (pos : 0 < d) (small : d < 2 ^ 19) (below : N + MAXMAPPEDFILES ≤ n)
    (reach : n + MAXMAPPEDFILES * d ≤ 2 * N)
    (user : 2 * ((N + MAXMAPPEDFILES) * PGSIZE) + 100 ≤ KERNBASE) (stack : 10 ≤ N)
    (enough : d ≤ room) (k : Nat) (le : k ≤ MAXMAPPEDFILES) :
    ∃ t, Stage t (n + k * d) N k MAXMAPPEDFILES
      (room + (MAXMAPPEDFILES - k) * (d / 1024 + 2)) ∧ Tabled t N (n + k * d) := by
  induction k with
  | zero => exact ⟨s, by simpa using h, by simpa using tabled⟩
  | succ k ih =>
    obtain ⟨t, stage, tables⟩ := ih (by omega)
    have left : room + (MAXMAPPEDFILES - k) * (d / 1024 + 2) =
        room + (MAXMAPPEDFILES - (k + 1)) * (d / 1024 + 2) + (d / 1024 + 2) := by
      rw [show MAXMAPPEDFILES - k = MAXMAPPEDFILES - (k + 1) + 1 by omega, Nat.succ_mul]
      omega
    rw [left] at stage
    have mono : k * d + d ≤ MAXMAPPEDFILES * d := by
      rw [← Nat.succ_mul]
      exact Nat.mul_le_mul_right d le
    have lower : 2 * ((N + k) * PGSIZE) + 100 ≤ KERNBASE :=
      (Nat.add_le_add_right (Nat.mul_le_mul_left 2 (Nat.mul_le_mul_right _ (by omega))) 100).trans
        user
    rw [Nat.succ_mul, ← Nat.add_assoc]
    exact stage.lap tables (by omega) pos small (by omega) (by omega) lower stack (by omega)

end Stage

end MmapXv6
