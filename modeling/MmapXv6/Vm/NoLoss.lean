import MmapXv6.Vm.Stores

/-! Unmapping keeps what was stored, and with it a whole run: munmap and the loop of
exit move the recorded bytes of a mapping to its file, and the other mappings keep
theirs as long as the pages that munmap frees are not among their pages in memory. -/
namespace MmapXv6

open Lib (bind_ok Reaches)

variable {i k : Fin MAXMAPPEDFILES} {s t : Vm} {w : Written}

theorem Spares.byte {j : Fin MAXMAPPEDFILES} (h : Spares s i j)
    (aligned : (s.proc.ommap j).va % PGSIZE = 0) {n : Nat} (inside : n < (s.proc.ommap j).sz)
    (lo : (s.proc.ommap i).va ≤ ((s.proc.ommap j).va + n) / PGSIZE * PGSIZE)
    (hi : ((s.proc.ommap j).va + n) / PGSIZE * PGSIZE <
      2 * (s.proc.ommap i).va + (s.proc.ommap i).sz) :
    s.entry (((s.proc.ommap j).va + n) / PGSIZE) = none := by
  have page : ((s.proc.ommap j).va + n / PGSIZE * PGSIZE) =
      ((s.proc.ommap j).va + n) / PGSIZE * PGSIZE := by
    simp only [PGSIZE] at aligned ⊢
    omega
  have index : ((s.proc.ommap j).va + n / PGSIZE * PGSIZE) / PGSIZE =
      ((s.proc.ommap j).va + n) / PGSIZE := by
    rw [page, Nat.mul_div_cancel _ (by decide)]
  rw [← index]
  apply h
  · simp only [PGSIZE]
    omega
  · omega
  · omega

structure Unmapped (s t : Vm) (i : Fin MAXMAPPEDFILES) : Prop where
  dead : ¬Live t.proc i
  other : ∀ k, k ≠ i → t.proc.ommap k = s.proc.ommap k
  entry : ∀ v, t.entry v = s.entry v ∨ t.entry v = none

/-- What unmapping i makes of the files and the pages: the dirty bytes of i are in its
file, and the pages of the other mappings stay. -/
structure Flushed (s t : Vm) (i : Fin MAXMAPPEDFILES) (ip : Fin NINODE) : Prop
    extends Unmapped s t i where
  sz : t.proc.sz = s.proc.sz
  apart : t.uvm.Apart
  file : SameOpen s.fs t.fs
  inode : ∀ jp, jp ≠ ip → t.fs.inode jp = s.fs.inode jp
  written : ∀ n e, n < (s.proc.ommap i).sz →
    s.entry (((s.proc.ommap i).va + n) / PGSIZE) = some e → e.dirty = true →
    n < (t.fs.inode ip).size ∧
      (t.fs.inode ip).data n = s.kmem.mem e.pa (((s.proc.ommap i).va + n) % PGSIZE)
  page : ∀ k n e, k ≠ i → Live s.proc k → n < (s.proc.ommap k).sz →
    s.entry (((s.proc.ommap k).va + n) / PGSIZE) = some e →
    t.entry (((s.proc.ommap k).va + n) / PGSIZE) = some e ∧ t.kmem.mem e.pa = s.kmem.mem e.pa

theorem Unmapped.live (h : Unmapped s t i)
    (live : Live t.proc k) : k ≠ i ∧ Live s.proc k := by
  have ne : k ≠ i := by
    rintro rfl
    exact h.dead live
  unfold Live at live ⊢
  rw [h.other k ne] at live
  exact ⟨ne, live⟩

section Unmapping
variable {s t : Vm} {w : Written} {i : Fin MAXMAPPEDFILES} {f : Fin NFILE} {ip : Fin NINODE}

/-- The loop writes the pages of i back, and then deallocuvm frees from va on. Its upper
end is va + (va + sz), since munmap passes an address where a size is expected. -/
theorem StoresInv.munmapAt_flushed (h : StoresInv s w) (mapped : (s.proc.ommap i).pfile = some f)
    (frees : FreesUser s i) (spares : ∀ j, j ≠ i → Live s.proc j → Spares s i j)
    (done : munmapAt s i f = .ok t) : ∃ ip, s.inodeOf i = some ip ∧ Flushed s t i ip := by
  have live : Live s.proc i := by simp [Live, mapped]
  obtain ⟨pos, aligned, below, low, small⟩ := h.place i live
  obtain ⟨ip, backed, inside⟩ := h.backed i f mapped
  obtain ⟨m, r, u, loop, proc, kmem, freed, rfl⟩ := munmapAt_cases done
  have end_ : ((s.proc.ommap i).va + (s.proc.ommap i).sz) % 2 ^ 32 =
      (s.proc.ommap i).va + (s.proc.ommap i).sz := by
    simp only [KERNBASE] at low
    omega
  have high : ((s.proc.ommap i).va + ((s.proc.ommap i).va + (s.proc.ommap i).sz)) % 2 ^ 32 =
      2 * (s.proc.ommap i).va + (s.proc.ommap i).sz := by
    unfold FreesUser at frees
    simp only [KERNBASE] at frees
    omega
  rw [end_] at loop freed
  rw [high] at freed
  have wrote := writebackLoop_wrote backed aligned aligned (Nat.le_refl _) low small inside loop
  obtain ⟨apart, mem⟩ := deallocuvm_memory frees h.apart freed
  have gone := (deallocuvm_freed frees freed).entry
  rw [PGROUNDUP_aligned aligned (by omega)] at gone
  have self : s.inodeOf i = some ip := by
    unfold Vm.inodeOf
    rw [mapped]
    exact backed.inode
  refine ⟨ip, self, ⟨?_, ?_, fun v => (gone v).imp id And.left⟩, ?_, apart, wrote.file,
    wrote.other, ?_, ?_⟩
  · simp [Live, Vm.dropMmap]
  · intro k ne
    change Function.update m.proc.ommap i _ k = _
    rw [Function.update_of_ne ne, proc]
  · change m.proc.sz = _
    rw [proc]
  · intro n e less there dirty
    exact ⟨less.trans_le (inside.trans wrote.size),
      wrote.dirty n e (by omega) (by omega) there dirty⟩
  · intro k n e ne live less there
    have stays : u.pgdir.entry (((s.proc.ommap k).va + n) / PGSIZE) = some e := by
      rcases gone (((s.proc.ommap k).va + n) / PGSIZE) with same | ⟨-, lo, hi⟩
      · exact same.trans there
      · have none := (spares k ne live).byte (h.place k live).2.1 less lo hi
        rw [none] at there
        cases there
    exact ⟨stays, mem _ e (h.byte_page live less) stays⟩

/-- The mappings that are left after i are those of before, and none of them is of the
file of i. -/
theorem Flushed.survivor (m : Flushed s t i ip) (h : StoresInv s w) (self : s.inodeOf i = some ip)
    {jp : Fin NINODE} (hk : t.inodeOf k = some jp) : k ≠ i ∧ s.inodeOf k = some jp ∧ jp ≠ ip := by
  obtain ⟨ne, -⟩ := m.live (live_of_inodeOf hk)
  rw [inodeOf_same (m.other k ne) m.file] at hk
  refine ⟨ne, hk, ?_⟩
  rintro rfl
  exact ne (h.distinct k i jp hk self)

theorem Flushed.stores (m : Flushed s t i ip) (h : StoresInv s w) (self : s.inodeOf i = some ip) :
    StoresInv t w := by
  refine ⟨m.apart, ?_, ?_, ?_, ?_, ?_, ?_⟩
  · intro k hk
    obtain ⟨ne, live⟩ := m.live hk
    rw [m.other k ne, m.sz]
    exact h.place k live
  · refine h.order.fewer fun k hk => ?_
    obtain ⟨ne, live⟩ := m.live hk
    exact ⟨live, m.other k ne⟩
  · intro k g hg
    obtain ⟨ne, live⟩ := m.live (k := k) (by simp [Live, hg])
    rw [m.other k ne] at hg ⊢
    obtain ⟨jp, back, size⟩ := h.backed k g hg
    have other : jp ≠ ip := by
      rintro rfl
      apply ne
      apply h.distinct k i jp _ self
      unfold Vm.inodeOf
      rw [hg]
      exact back.inode
    refine ⟨jp, back.same m.file ?_, ?_⟩
    · rw [m.inode jp other]
    · rw [m.inode jp other]
      exact size
  · intro j k jp hj hk
    exact h.distinct j k jp (m.survivor h self hj).2.1 (m.survivor h self hk).2.1
  · intro k jp n b hk hw
    obtain ⟨ne, before, -⟩ := m.survivor h self hk
    obtain ⟨less, e, there, dirty, byte⟩ := h.kept k jp n b before hw
    obtain ⟨stays, mem⟩ := m.page k n e ne (live_of_inodeOf before) less there
    rw [m.other k ne]
    exact ⟨less, e, stays, dirty, by rw [mem]; exact byte⟩
  · intro jp n b hw none
    -- the file of i gets the bytes that were in memory; the others had them already
    by_cases e : jp = ip
    · subst e
      obtain ⟨less, p, there, dirty, byte⟩ := h.kept i jp n b self hw
      obtain ⟨inside, data⟩ := m.written n p less there dirty
      exact ⟨inside, data.trans byte⟩
    · rw [m.inode jp e]
      refine h.saved jp n b hw fun k before => ?_
      have ne : k ≠ i := by
        rintro rfl
        exact e (Option.some.inj (before.symm.trans self))
      exact none k ((inodeOf_same (m.other k ne) m.file).trans before)

theorem StoresInv.munmapAt (h : StoresInv s w) (mapped : (s.proc.ommap i).pfile = some f)
    (frees : FreesUser s i) (spares : ∀ j, j ≠ i → Live s.proc j → Spares s i j)
    (done : munmapAt s i f = .ok t) : StoresInv t w ∧ Unmapped s t i := by
  obtain ⟨ip, self, m⟩ := h.munmapAt_flushed mapped frees spares done
  exact ⟨m.stores h self, m.toUnmapped⟩

end Unmapping

theorem StoresInv.munmap (h : StoresInv s w) {addr : Nat} {r : Int}
    (calm : ∀ i, mappingAt s.proc.ommap addr = some i →
      FreesUser s i ∧ ∀ j, j ≠ i → Live s.proc j → Spares s i j)
    (done : munmap s addr = .ok (r, t)) :
    StoresInv t w ∧ ∀ i, mappingAt s.proc.ommap addr = some i → Unmapped s t i := by
  unfold MmapXv6.munmap at done
  split at done
  · rename_i none
    cases done
    exact ⟨h, fun i found => by rw [none] at found; cases found⟩
  · rename_i i found
    split at done
    · rename_i unmapped
      have live := (mappingAt_some found).2.1
      rw [Live, unmapped] at live
      cases live
    · rename_i f mapped
      obtain ⟨m, removed, eq⟩ := bind_ok.mp done
      cases eq
      obtain ⟨frees, spares⟩ := calm i found
      obtain ⟨inv, gone⟩ := h.munmapAt mapped frees spares removed
      refine ⟨inv, fun j hj => ?_⟩
      obtain rfl := Option.some.inj (found.symm.trans hj)
      exact gone

theorem Unmapped.frees (h : Unmapped s t i) (ne : k ≠ i)
    (frees : FreesUser s k) : FreesUser t k := by
  unfold FreesUser
  rw [h.other k ne]
  exact frees

theorem Unmapped.spares {j : Fin MAXMAPPEDFILES} (h : Unmapped s t i)
    (hj : j ≠ i) (hk : k ≠ i) (spares : Spares s j k) : Spares t j k := by
  unfold Spares
  rw [h.other j hj, h.other k hk]
  intro n less lo hi
  rcases h.entry (((s.proc.ommap k).va + n * PGSIZE) / PGSIZE) with same | none
  · rw [same]
    exact spares n less lo hi
  · exact none

/-- The loop of exit from one index on. The mappings before it are gone, so each call
of munmap finds the mapping that the loop is at, and only later ones are left. -/
theorem StoresInv.exitLoop {ks : List (Fin MAXMAPPEDFILES)}
    (h : StoresInv s w) (sorted : ks.Pairwise (· < ·)) (todo : ∀ k, Live s.proc k → k ∈ ks)
    (calm : ∀ i, Live s.proc i → FreesUser s i ∧ ∀ j, i < j → Live s.proc j → Spares s i j)
    (done : ks.foldlM unmapLive s = .ok t) : StoresInv t w ∧ ∀ k, ¬Live t.proc k := by
  induction ks generalizing s with
  | nil =>
    cases done
    exact ⟨h, fun k live => List.not_mem_nil (todo k live)⟩
  | cons k ks ih =>
    obtain ⟨first, sorted'⟩ := List.pairwise_cons.mp sorted
    rw [List.foldlM_cons] at done
    obtain ⟨m, step, rest⟩ := bind_ok.mp done
    unfold unmapLive at step
    split at step
    · rename_i live
      obtain ⟨⟨r, m'⟩, removed, eq⟩ := bind_ok.mp step
      cases eq
      obtain ⟨i, found, le⟩ := mappingAt_first live (h.place k live).1
      have at_k : i = k := by
        rcases List.mem_cons.mp (todo i (mappingAt_some found).2.1) with e | later
        · exact e
        · exact absurd (first i later) (Fin.not_lt.mpr le)
      subst at_k
      have later : ∀ j, j ≠ i → Live s.proc j → i < j := by
        intro j ne hj
        exact first j ((List.mem_cons.mp (todo j hj)).resolve_left ne)
      obtain ⟨frees, spares⟩ := calm i live
      obtain ⟨inv, gone⟩ := h.munmap (fun j hj => by
        obtain rfl := Option.some.inj (found.symm.trans hj)
        exact ⟨frees, fun j ne hj => spares j (later j ne hj) hj⟩) removed
      have unmapped := gone i found
      apply ih inv sorted' _ _ rest
      · intro j hj
        obtain ⟨ne, before⟩ := unmapped.live hj
        exact (List.mem_cons.mp (todo j before)).resolve_left ne
      · intro j hj
        obtain ⟨ne, before⟩ := unmapped.live hj
        obtain ⟨frees, spares⟩ := calm j before
        refine ⟨unmapped.frees ne frees, fun l less hl => ?_⟩
        obtain ⟨ne', before'⟩ := unmapped.live hl
        exact unmapped.spares ne ne' (spares l less before')
    · rename_i dead
      cases step
      refine ih h sorted' (fun j hj => ?_) calm rest
      apply (List.mem_cons.mp (todo j hj)).resolve_left
      rintro rfl
      exact dead hj

structure SessionInv (s : Session) : Prop where
  stores : StoresInv s.vm s.written
  exited : s.exited = true → ∀ k, ¬Live s.vm.proc k

theorem StoresInv.user (h : StoresInv s w) {a : Nat}
    (inside : InMapping s.proc k a) : a < KERNBASE := by
  obtain ⟨-, -, -, low, -⟩ := h.place k inside.1
  have := inside.2.2
  omega

theorem StoresInv.mmap {s t : Session} {fd : Int} {addr : Nat} (h : StoresInv s.vm s.written)
    (legal : SessionAct.Legal s (.mmap fd addr)) (calm : SessionAct.Calm s (.mmap fd addr))
    (done : sessionStep s (.mmap fd addr) = .ok t) :
    StoresInv t.vm t.written ∧ t.exited = s.exited := by
  obtain ⟨⟨r, vm⟩, mapped, eq⟩ := bind_ok.mp done
  cases mmap_mapping mapped with
  | fail failed =>
    dsimp only at eq
    rw [if_neg failed] at eq
    cases eq
    exact ⟨h, rfl⟩
  | @map _ i f ip opened inode free stored =>
    cases eq
    have mapInode : mapInode s.vm fd = some ip := by simp [MmapXv6.mapInode, opened, inode]
    obtain ⟨-, -, rdwr, new⟩ := legal
    obtain ⟨pos, aligned, pointer, file⟩ := calm
    obtain ⟨low, small⟩ := file ip mapInode
    obtain ⟨type, -, writable, jp, hjp, regular⟩ := rdwr f opened
    obtain rfl := Option.some.inj (inode.symm.trans hjp)
    have first :=
      h.addMmap free ⟨type, writable, inode, regular⟩ (new ip mapInode) pos aligned low small
    have user : ∀ p ∈ wordBytes addr s.vm.proc.sz, p.1 < KERNBASE := by
      intro p hp
      obtain ⟨j, hj, rfl⟩ := List.mem_map.mp hp
      have := List.mem_range.mp hj
      omega
    rw [mapInode]
    exact ⟨(first.stores user stored).1, rfl⟩

theorem SessionInv.step {s t : Session} {a : SessionAct} (h : SessionInv s) (legal : a.Legal s)
    (calm : a.Calm s) (done : sessionStep s a = .ok t) : SessionInv t := by
  have running : ∀ {t : Session}, s.exited = false → t.exited = s.exited →
      StoresInv t.vm t.written → SessionInv t := by
    intro t off same inv
    exact ⟨inv, fun on => by rw [same, off] at on; cases on⟩
  cases a with
  | mmap fd addr =>
    obtain ⟨inv, same⟩ := h.stores.mmap legal calm done
    exact running legal.1 same inv
  | load a =>
    obtain ⟨off, k, inside⟩ := legal
    have low := h.stores.user inside
    obtain ⟨⟨b, vm⟩, loaded, eq⟩ := bind_ok.mp done
    cases eq
    refine running off rfl ?_
    rcases load_cases (low.trans (by decide)) loaded with rfl | fault
    · exact h.stores
    · exact h.stores.extend (trapped_extends low fault)
  | store a b =>
    obtain ⟨off, k, inside⟩ := legal
    obtain ⟨⟨ok, vm⟩, stored, eq⟩ := bind_ok.mp done
    cases eq
    exact running off rfl (h.stores.store (h.stores.user inside) stored).1
  | munmap addr =>
    obtain ⟨⟨r, vm⟩, removed, eq⟩ := bind_ok.mp done
    cases eq
    refine running legal.1 rfl ?_
    refine (h.stores.munmap (fun i found => ?_) removed).1
    obtain ⟨-, live, at_⟩ := mappingAt_some found
    exact calm i live at_.symm
  | exit =>
    obtain ⟨vm, unmapped, eq⟩ := bind_ok.mp done
    cases eq
    obtain ⟨inv, dead⟩ := h.stores.exitLoop (List.pairwise_lt_finRange _)
      (fun k _ => List.mem_finRange k) calm unmapped
    exact ⟨inv, fun _ => dead⟩

theorem SessionInv.start {s : Session} (h : SessionStart s) : SessionInv s := by
  obtain ⟨apart, none, written, running⟩ := h
  have unmapped : ∀ k ip, s.vm.inodeOf k ≠ some ip := fun k ip hk => none k (live_of_inodeOf hk)
  refine ⟨⟨apart, ?_, ?_, ?_, ?_, ?_, ?_⟩, fun _ => none⟩
  · exact fun k live => absurd live (none k)
  · exact fun j _ _ live => absurd live (none j)
  · exact fun k f hf => absurd (show Live s.vm.proc k by simp [Live, hf]) (none k)
  · exact fun j _ ip hj => absurd hj (unmapped j ip)
  · exact fun k ip _ _ hk => absurd hk (unmapped k ip)
  · intro ip i b hw
    rw [written ip i] at hw
    cases hw

/-- No store is lost in any state of any run whose steps are all calm. -/
theorem no_write_lost {s : Session}
    (run : Reaches sessionStep (fun s a => a.Legal s ∧ a.Calm s) SessionStart s) :
    NoWriteLost s := by
  have inv : SessionInv s := run.invariant SessionInv (fun _ => .start)
    fun s a t inv allowed done => inv.step allowed.1 allowed.2 done
  intro ip i b written removed
  apply inv.stores.saved ip i b written
  rcases removed with exited | gone
  · exact fun k hk => inv.exited exited k (live_of_inodeOf hk)
  · exact gone

/-- A process with no mapping: text at 0, the top page of the stack at 0x9000, and two
files of 100 zero bytes open read/write as descriptors 0 and 1. -/
def twoFiles : Session where
  vm :=
    { proc := { sz := 0xA000, sstack := 0x2000, state := .running, pid := 3,
                pgdir := { page := 0x400
                           tab := fun i => if i = 0 then some 0x401 else none
                           pte := fun v => if v = 0 ∨ v = 9 then some (userPte (0x300 + v))
                             else none }
                ofile := fun fd => if fd = 0 then some 0 else if fd = 1 then some 1 else none }
      kmem := { freelist := [0x900, 0x901, 0x902] }
      fs := { file := fun f => ⟨.inode, true, true, if f = 0 then some 0 else some 1, 0⟩
              inode := fun _ => { size := 100 } } }

theorem twoFiles_start : SessionStart twoFiles := by
  refine ⟨⟨?_, ?_, by decide⟩, by decide, fun _ _ => rfl, rfl⟩
  all_goals
    have owned : ∀ {v f}, twoFiles.vm.uvm.pgdir.owner v = some f → (v = 0 ∨ v = 9) ∧
      f = 0x300 + v := by
      intro v f h
      simp only [PgDir.owner, PgDir.entry, Vm.uvm, twoFiles] at h
      grind [userPte]
  · intro v v' f hv hv'
    have := owned hv
    have := owned hv'
    omega
  · intro v f hv mem
    have := owned hv
    simp only [Vm.uvm, twoFiles, List.mem_cons, List.not_mem_nil, or_false] at mem
    omega

/-- Both files are stored to, and the mapping made last goes first. -/
theorem no_write_lost_two : ∃ t, NoWriteLost t ∧ t.exited = true ∧ t.written 0 1 = some 77 ∧
    t.written 1 5 = some 88 := by
  have start : Reaches sessionStep (fun s a => a.Legal s ∧ a.Calm s) SessionStart twoFiles :=
    .start twoFiles_start
  obtain ⟨t, run, passed⟩ := start.exists_of_follow
    [.mmap 0 0x9FF0, .mmap 1 0x9FF4, .store 0xB005 88, .store 0xA001 77, .load 0xB006,
      .munmap 0xB000, .exit]
    (fun t => decide (t.exited = true ∧ t.written 0 1 = some 77 ∧ t.written 1 5 = some 88))
    (by decide +kernel)
  exact ⟨t, no_write_lost run, of_decide_eq_true passed⟩

/-- Removing the first mapping frees the pages of the second, and the byte stored there
is in neither memory nor the file afterwards. The loop of exit does the same. -/
theorem write_lost :
    (∃ t, Reaches sessionStep (fun s a => a.Legal s) SessionStart t ∧ t.written 1 5 = some 88 ∧
      (∀ k, t.vm.inodeOf k ≠ some 1) ∧ (t.vm.fs.inode 1).data 5 = 0) ∧
    (∃ t, Reaches sessionStep (fun s a => a.Legal s) SessionStart t ∧ t.exited = true ∧
      t.written 1 5 = some 88 ∧ (t.vm.fs.inode 1).data 5 = 0) := by
  have start : Reaches sessionStep (fun s a => a.Legal s) SessionStart twoFiles :=
    .start twoFiles_start
  constructor
  · obtain ⟨t, run, passed⟩ := start.exists_of_follow
      [.mmap 0 0x9FF0, .mmap 1 0x9FF4, .store 0xB005 88, .munmap 0xA000, .munmap 0xB000]
      (fun t => decide (t.written 1 5 = some 88 ∧ (∀ k, t.vm.inodeOf k ≠ some 1) ∧
        (t.vm.fs.inode 1).data 5 = 0)) (by decide +kernel)
    exact ⟨t, run, of_decide_eq_true passed⟩
  · obtain ⟨t, run, passed⟩ := start.exists_of_follow
      [.mmap 0 0x9FF0, .mmap 1 0x9FF4, .store 0xB005 88, .exit]
      (fun t => decide (t.exited = true ∧ t.written 1 5 = some 88 ∧
        (t.vm.fs.inode 1).data 5 = 0)) (by decide +kernel)
    exact ⟨t, run, of_decide_eq_true passed⟩

end MmapXv6
