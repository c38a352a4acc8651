import MmapXv6.Vm.Returns
import MmapXv6.Vm.Writeback

/-! The pages that munmap frees. It hands the end address of the mapping to unmappages
as a length, so deallocuvm runs from va to 2 * va + sz, and where a page table is missing
it jumps by the length of one table from where it stands. What it comes by is compared
with what belongs to the mapping. -/
namespace MmapXv6

open Lib (bind_ok ok_bind)
open Function

variable {addr n v : Nat} {f : Fin NFILE}

/-- The jumps from a pass over v: no table from the one of a up to that of v exists, and
v stands before a in its table. -/
def PgDir.Skips (d : PgDir) (a v : Nat) : Prop :=
  PDX a < v / NPTENTRIES ∧ (∀ i, PDX a ≤ i → i < v / NPTENTRIES → d.tab i = none) ∧
    v % NPTENTRIES < a / PGSIZE % NPTENTRIES

/-- The loop of deallocuvm from a to oldsz looks at the entry of v, if v has a table. -/
def PgDir.Walks (d : PgDir) (a oldsz v : Nat) : Prop :=
  a ≤ v * PGSIZE ∧ v * PGSIZE < oldsz ∧ ¬d.Skips a v

section Walks
variable {d : PgDir} {a oldsz v : Nat}

theorem PDX_jump (a : Nat) : PDX (a + NPTENTRIES * PGSIZE) = PDX a + 1 := by
  simp only [PDX, NPTENTRIES, PGSIZE]
  omega

theorem not_skips_of_table (there : (d.tab (PDX a)).isSome) : ¬d.Skips a v := by
  rintro ⟨after, missing, -⟩
  rw [missing _ (Nat.le_refl _) after] at there
  cases there

theorem not_skips_of_start (start : a % (NPTENTRIES * PGSIZE) = 0) : ¬d.Skips a v := by
  rintro ⟨-, -, before⟩
  simp only [NPTENTRIES, PGSIZE] at start before
  omega

theorem walks_page (aligned : a % PGSIZE = 0) (below : a < oldsz) (there : (d.tab (PDX a)).isSome) :
    d.Walks a oldsz v ↔ v = a / PGSIZE ∨ d.Walks (a + PGSIZE) oldsz v := by
  have stays : ¬d.Skips (a + PGSIZE) v := by
    rcases table_or_boundary aligned there with table | start
    · exact not_skips_of_table table
    · exact not_skips_of_start start
  simp only [PgDir.Walks, not_skips_of_table there, stays, not_false_eq_true, and_true]
  simp only [PGSIZE] at aligned ⊢
  omega

theorem walks_jump (aligned : a % PGSIZE = 0) (absent : d.tab (PDX a) = none)
    (there : (d.tab (v / NPTENTRIES)).isSome) :
    d.Walks a oldsz v ↔ d.Walks (a + NPTENTRIES * PGSIZE) oldsz v := by
  have other : v / NPTENTRIES ≠ PDX a := by
    intro same
    rw [same, absent] at there
    cases there
  have skips : d.Skips (a + NPTENTRIES * PGSIZE) v ↔ PDX a + 1 < v / NPTENTRIES ∧ d.Skips a v := by
    unfold PgDir.Skips
    rw [PDX_jump]
    have offset : (a + NPTENTRIES * PGSIZE) / PGSIZE % NPTENTRIES = a / PGSIZE % NPTENTRIES := by
      simp only [NPTENTRIES, PGSIZE]
      omega
    rw [offset]
    constructor
    · rintro ⟨after, missing, before⟩
      refine ⟨after, by omega, fun i lower upper => ?_, before⟩
      by_cases first : i = PDX a
      · rw [first, absent]
      · exact missing i (by omega) upper
    · rintro ⟨after, -, missing, before⟩
      exact ⟨after, fun i lower upper => missing i (by omega) upper, before⟩
  unfold PgDir.Walks
  rw [skips]
  constructor
  · rintro ⟨low, high, kept⟩
    refine ⟨?_, high, fun skipped => kept skipped.2⟩
    by_contra short
    -- v would stand in the next table, before the place where the jump ends
    apply kept
    refine ⟨?_, fun i lower upper => ?_, ?_⟩
    · simp only [PDX, NPTENTRIES, PGSIZE] at other low ⊢
      omega
    · have only : i = PDX a := by
        simp only [PDX, NPTENTRIES, PGSIZE] at other low short lower upper ⊢
        omega
      rw [only, absent]
    · simp only [PDX, NPTENTRIES, PGSIZE] at aligned other low short ⊢
      omega
  · rintro ⟨low, high, kept⟩
    refine ⟨by omega, high, fun skipped => ?_⟩
    by_cases next : PDX a + 1 < v / NPTENTRIES
    · exact kept ⟨next, skipped⟩
    · obtain ⟨after, -, before⟩ := skipped
      simp only [PDX, NPTENTRIES, PGSIZE] at low next after before
      omega

theorem walks_user : d.Walks a (min oldsz KERNBASE) v ↔ d.Walks a oldsz v ∧ v < UPAGES := by
  have user : v * PGSIZE < min oldsz KERNBASE ↔ v * PGSIZE < oldsz ∧ v < UPAGES := by
    simp only [UPAGES, PGSIZE, KERNBASE]
    omega
  unfold PgDir.Walks
  rw [user]
  tauto

end Walks

section Loop
variable {u u' : Uvm} {a oldsz v : Nat}

theorem Deallocs.entry_none_iff {e : Pte} (h : Deallocs oldsz u a u') (aligned : a % PGSIZE = 0)
    (there : u.pgdir.entry v = some e) : u'.pgdir.entry v = none ↔ u.pgdir.Walks a oldsz v := by
  induction h with
  | stop done =>
    simp only [there, reduceCtorEq, false_iff]
    rintro ⟨low, high, -⟩
    omega
  | jump below absent rest ih =>
    rw [walks_jump aligned absent (PgDir.table_of_entry there)]
    exact ih (table_next aligned) there
  | @pass u u' a below table none rest ih =>
    rw [walks_page aligned below table, ih (page_next aligned) there]
    have other : v ≠ a / PGSIZE := by
      rintro rfl
      rw [none] at there
      cases there
    simp [other]
  | @free u u' a f k below here freed rest ih =>
    have table : (u.pgdir.tab (PDX a)).isSome := PgDir.table_of_entry here
    rw [walks_page aligned below table]
    have entry := u.pgdir.entry_set none table
    by_cases first : v = a / PGSIZE
    · simp only [first, true_or, iff_true]
      apply (rest.freed (page_next aligned)).entry_none
      rw [entry, update_self]
    · have after : (u.pgdir.set (a / PGSIZE) none).entry v = some e := by
        rw [entry, update_of_ne first, there]
      have rest_iff : u'.pgdir.entry v = none ↔ u.pgdir.Walks (a + PGSIZE) oldsz v :=
        ih (page_next aligned) after
      simpa [first] using rest_iff

/-- The kernel's half of every page directory: physical memory from KERNBASE on. -/
def PgDir.KernelMapped (d : PgDir) : Prop :=
  ∀ v, UPAGES ≤ v → v < UPAGES + PHYSTOP / PGSIZE → ∃ e, d.entry v = some e ∧ e.pa = v - UPAGES

theorem deallocPage_entry (there : (u.pgdir.tab (PDX a)).isSome)
    (freed : deallocPage u a = .ok u') : u'.pgdir.tab = u.pgdir.tab ∧
    (u' = u ∧ u.pgdir.entry (a / PGSIZE) = none ∨
      (∃ e, u.pgdir.entry (a / PGSIZE) = some e ∧ e.pa ≠ 0) ∧
        u'.pgdir.entry = update u.pgdir.entry (a / PGSIZE) none) := by
  have same : u.pgdir.entry (a / PGSIZE) = u.pgdir.pte (a / PGSIZE) := u.pgdir.entry_of_table there
  unfold deallocPage at freed
  split at freed
  · rename_i none
    cases freed
    exact ⟨rfl, .inl ⟨rfl, same.trans none⟩⟩
  · rename_i e some
    split at freed
    · cases freed
    · obtain ⟨k, -, eq⟩ := bind_ok.mp freed
      cases eq
      exact ⟨rfl, .inr ⟨⟨e, same.trans some, ‹_›⟩, u.pgdir.entry_set none there⟩⟩

theorem deallocuvmLoop_entry (done : deallocuvmLoop n u a oldsz = .ok u') (v : Nat) :
    u'.pgdir.entry v = u.pgdir.entry v ∨
      u'.pgdir.entry v = none ∧ ∃ e, u.pgdir.entry v = some e ∧ e.pa ≠ 0 := by
  induction n generalizing u a with
  | zero => cases done
  | succ n ih =>
    unfold deallocuvmLoop at done
    split at done
    · rw [walkpgdir_noalloc] at done
      split at done
      · exact ih done
      · rename_i w walked
        obtain ⟨there, rfl⟩ : (u.pgdir.tab (PDX a)).isSome ∧ u = w := by simpa using walked
        obtain ⟨x, freed, rest⟩ := bind_ok.mp done
        rcases (deallocPage_entry there freed).2 with ⟨rfl, -⟩ | ⟨gone, entry⟩
        · exact ih rest
        · by_cases here : v = a / PGSIZE
          · right
            subst here
            have absent : x.pgdir.entry (a / PGSIZE) = none := by rw [entry, update_self]
            rcases ih rest with same | ⟨none, -⟩
            · exact ⟨same.trans absent, gone⟩
            · exact ⟨none, gone⟩
          · have kept : x.pgdir.entry v = u.pgdir.entry v := by rw [entry, update_of_ne here]
            rw [← kept]
            exact ih rest
    · cases done
      exact .inl rfl

/-- The loop from below the kernel. It frees user pages only, or comes by a page of the
kernel, and then it stops the kernel or takes that page out of the directory. -/
theorem deallocuvmLoop_split (owned : u.Owned) (kernel : u.pgdir.KernelMapped)
    (aligned : a % PGSIZE = 0) (low : a < KERNBASE + NPTENTRIES * PGSIZE)
    (fuel : oldsz ≤ a + n * PGSIZE) :
    ((∀ v e, u.pgdir.entry v = some e → u.pgdir.Walks a oldsz v → v < UPAGES) ∧
      ∃ u', deallocuvmLoop (n + 1) u a oldsz = .ok u' ∧ Deallocs (min oldsz KERNBASE) u a u') ∨
    ∃ v e, UPAGES ≤ v ∧ u.pgdir.entry v = some e ∧ u.pgdir.Walks a oldsz v ∧
      ∀ u', deallocuvmLoop (n + 1) u a oldsz = .ok u' → u'.pgdir.entry v = none := by
  induction n generalizing u a with
  | zero =>
    refine .inl ⟨fun v e there walked => ?_, u, ?_, .stop (by omega)⟩
    · have := walked.1
      have := walked.2.1
      omega
    · rw [deallocuvmLoop, if_neg (by omega)]
  | succ n ih =>
    rw [Nat.succ_mul] at fuel
    rw [deallocuvmLoop]
    by_cases below : a < oldsz
    swap
    · refine .inl ⟨fun v e there walked => ?_, u, if_neg below, .stop (by omega)⟩
      have := walked.1
      have := walked.2.1
      omega
    rw [if_pos below, walkpgdir_noalloc]
    by_cases user : a < KERNBASE
    · have jump : (a + (NPTENTRIES - 1) * PGSIZE + PGSIZE) % 2 ^ 32 = a + NPTENTRIES * PGSIZE := by
        simp only [NPTENTRIES, PGSIZE, KERNBASE] at user ⊢
        omega
      have next : (a + PGSIZE) % 2 ^ 32 = a + PGSIZE := by
        simp only [PGSIZE, KERNBASE] at user ⊢
        omega
      have both : a < min oldsz KERNBASE := by omega
      rw [jump, next]
      by_cases table : (u.pgdir.tab (PDX a)).isSome
      · rw [if_pos table]
        dsimp only
        have low' : a + PGSIZE < KERNBASE + NPTENTRIES * PGSIZE := by
          simp only [PGSIZE, NPTENTRIES] at user ⊢
          omega
        unfold deallocPage
        rw [← u.pgdir.entry_of_table (v := a / PGSIZE) table]
        cases there : u.pgdir.entry (a / PGSIZE) with
        | none =>
          rcases ih owned kernel (page_next aligned) low' (by omega) with
              ⟨all, u', done, frees⟩ | found
          · refine .inl ⟨fun v e some walked => ?_, u', done, .pass both table there frees⟩
            rcases (walks_page aligned below table).mp walked with rfl | later
            · exact user_page user
            · exact all v e some later
          · obtain ⟨v, e, kernel, some, walked, gone⟩ := found
            exact .inr ⟨v, e, kernel, some,
              (walks_page aligned below table).mpr (.inr walked), gone⟩
        | some e =>
          have page : a / PGSIZE < UPAGES := user_page user
          have legal := owned.user _ page e there
          obtain ⟨k, freed⟩ := kfree_returns legal
          have nonzero : e.pa ≠ 0 := by
            have := owned.zero
            omega
          dsimp only
          rw [if_neg nonzero, freed]
          dsimp only [ok_bind]
          have entry := u.pgdir.entry_set none table
          have kernel' : (u.pgdir.set (a / PGSIZE) none).KernelMapped := by
            intro v lower upper
            rw [entry, update_of_ne (by omega)]
            exact kernel v lower upper
          rcases ih (owned.give page there freed) kernel' (page_next aligned) low' (by omega) with
            ⟨all, u', done, frees⟩ | ⟨v, f, lower, some, walked, gone⟩
          · refine .inl ⟨fun v f some walked => ?_, u', done, .free both there freed frees⟩
            rcases (walks_page aligned below table).mp walked with rfl | later
            · exact page
            · by_cases here : v = a / PGSIZE
              · rwa [here]
              · exact all v f (by rw [entry, update_of_ne here, some]) later
          · refine .inr ⟨v, f, lower, ?_, (walks_page aligned below table).mpr (.inr walked), gone⟩
            rwa [entry, update_of_ne (by omega)] at some
      · rw [if_neg table]
        dsimp only
        have absent : u.pgdir.tab (PDX a) = none := by simpa using table
        rcases ih owned kernel (table_next aligned) (by omega)
            (by simp only [PGSIZE, NPTENTRIES] at fuel ⊢; omega) with ⟨all, u', done, frees⟩ | found
        · refine .inl ⟨fun v e there walked => ?_, u', done, .jump both absent frees⟩
          exact all v e there ((walks_jump aligned absent (PgDir.table_of_entry there)).mp walked)
        · obtain ⟨v, e, kernel, there, walked, gone⟩ := found
          have here := (walks_jump aligned absent (PgDir.table_of_entry there)).mpr walked
          exact .inr ⟨v, e, kernel, there, here, gone⟩
    · -- the first page of the kernel that the loop comes to is there
      have range : UPAGES ≤ a / PGSIZE ∧ a / PGSIZE < UPAGES + PHYSTOP / PGSIZE := by
        simp only [UPAGES, PHYSTOP, PGSIZE, KERNBASE, NPTENTRIES] at user low ⊢
        omega
      obtain ⟨e, there, -⟩ := kernel _ range.1 range.2
      have table : (u.pgdir.tab (PDX a)).isSome := PgDir.table_of_entry there
      refine .inr ⟨a / PGSIZE, e, range.1, there, (walks_page aligned below table).mpr (.inl rfl),
        fun u' done => ?_⟩
      rw [if_pos table] at done
      obtain ⟨x, freed, rest⟩ := bind_ok.mp done
      rcases (deallocPage_entry table freed).2 with ⟨-, none⟩ | ⟨-, entry⟩
      · rw [there] at none
        cases none
      · have absent : x.pgdir.entry (a / PGSIZE) = none := by rw [entry, update_self]
        rcases deallocuvmLoop_entry rest (a / PGSIZE) with same | ⟨none, -⟩
        · exact same.trans absent
        · exact none

end Loop

structure Fs.IsFile (fs : Fs) (f : Fin NFILE) (ip : Fin NINODE) : Prop where
  type : (fs.file f).type = .inode
  inode : (fs.file f).ip = some ip
  plain : (fs.inode ip).type ≠ .dev

section Returns
variable {fs : Fs} {f : Fin NFILE} {ip : Fin NINODE}

theorem Fs.IsFile.setOff (h : fs.IsFile f ip) (off : Nat) : (fs.setOff f off).IsFile f ip := by
  constructor <;> simp [Fs.setOff, h.type, h.inode, h.plain]

theorem fileseek_returns (h : fs.IsFile f ip) (off : Nat) :
    ∃ fs', fileseek fs f off = .ok fs' ∧ fs'.IsFile f ip := by
  unfold fileseek
  rw [h.inode]
  dsimp only
  split
  · exact ⟨_, rfl, h.setOff _⟩
  · exact ⟨_, rfl, h.setOff _⟩

theorem writei_returns {i : Inode} (plain : i.type ≠ .dev) (src : Lib.Bytes) (off n : Nat) :
    (∃ i', writei i src off n = .ok (n, i') ∧ i'.type ≠ .dev) ∨
      ∃ i', writei i src off n = .ok (-1, i') := by
  unfold writei
  rw [if_neg plain]
  split
  · exact .inr ⟨_, rfl⟩
  · split
    · exact .inr ⟨_, rfl⟩
    · exact .inl ⟨_, rfl, plain⟩

theorem filewriteLoop_returns (h : fs.IsFile f ip) (src : Lib.Bytes) {fuel done : Nat}
    (enough : n - done < fuel) :
    ∃ r fs', filewriteLoop f ip src n fuel fs done = .ok (r, fs') ∧ fs'.IsFile f ip := by
  induction fuel generalizing fs done with
  | zero => omega
  | succ fuel ih =>
    rw [filewriteLoop]
    by_cases more : done < n
    · rw [if_pos more]
      dsimp only
      have piece : 0 < if filewriteMax < n - done then filewriteMax else n - done := by
        have : 0 < filewriteMax := by decide
        split <;> omega
      generalize (if filewriteMax < n - done then filewriteMax else n - done) = n1 at piece ⊢
      rcases writei_returns h.plain (fun j => src (done + j)) (fs.file f).off n1 with
        ⟨i, wrote, plain⟩ | ⟨i, failed⟩
      · rw [wrote, ok_bind]
        simp only [Int.natCast_nonneg, Int.not_lt.mpr, if_false, ne_eq, not_true_eq_false]
        refine ih (Fs.IsFile.setOff ?_ _) (by omega)
        constructor <;> simp [Fs.setInode, h.type, h.inode, plain]
      · rw [failed, ok_bind]
        exact ⟨done, fs, rfl, h⟩
    · rw [if_neg more]
      exact ⟨done, fs, rfl, h⟩

theorem filewrite_returns (h : fs.IsFile f ip) (src : Lib.Bytes) (n : Nat) :
    ∃ r fs', filewrite fs f src n = .ok (r, fs') ∧ fs'.IsFile f ip := by
  unfold filewrite
  dsimp only
  split
  · exact ⟨_, _, rfl, h⟩
  · rw [h.type, h.inode]
    have enough : n - 0 < n + 1 := by omega
    obtain ⟨r, fs', wrote, h'⟩ := filewriteLoop_returns h src enough
    dsimp only
    rw [wrote, ok_bind]
    exact ⟨_, fs', rfl, h'⟩

theorem writeback_returns {s : Vm} (h : s.fs.IsFile f ip) (addr offset : Nat) :
    ∃ t, writeback s f addr offset = .ok t ∧ t.fs.IsFile f ip := by
  unfold writeback
  split
  · exact ⟨s, rfl, h⟩
  · split
    · rename_i e _ _
      obtain ⟨fs, sought, h'⟩ := fileseek_returns h ((offset + 2 ^ 32 - addr) % 2 ^ 32)
      obtain ⟨r, fs', wrote, h''⟩ := filewrite_returns h' (s.kmem.mem e.pa) PGSIZE
      rw [sought, ok_bind, wrote, ok_bind]
      exact ⟨_, rfl, h''⟩
    · exact ⟨s, rfl, h⟩

theorem writebackLoop_returns {s : Vm} (h : s.fs.IsFile f ip) {size offset : Nat}
    (word : size + PGSIZE ≤ 2 ^ 32) (enough : size ≤ offset + n * PGSIZE) :
    ∃ t, writebackLoop f addr size (n + 1) s offset = .ok t := by
  induction n generalizing s offset with
  | zero => exact ⟨s, by rw [writebackLoop, if_neg (by omega)]⟩
  | succ n ih =>
    rw [writebackLoop]
    by_cases more : offset < size
    · obtain ⟨t, wrote, h'⟩ := writeback_returns h addr offset
      have next : (offset + PGSIZE) % 2 ^ 32 = offset + PGSIZE := Nat.mod_eq_of_lt (by omega)
      rw [if_pos more, wrote, ok_bind, next]
      exact ih h' (by rw [Nat.succ_mul] at enough; omega)
    · exact ⟨s, if_neg more⟩

theorem writebackLoop_idle {s : Vm} {size offset : Nat} (word : size + PGSIZE ≤ 2 ^ 32)
    (idle : ∀ a, offset ≤ a → a < size → writeback s f addr a = .ok s)
    (enough : size ≤ offset + n * PGSIZE) :
    writebackLoop f addr size (n + 1) s offset = .ok s := by
  induction n generalizing offset with
  | zero => rw [writebackLoop, if_neg (by omega)]
  | succ n ih =>
    rw [writebackLoop]
    by_cases more : offset < size
    · have next : (offset + PGSIZE) % 2 ^ 32 = offset + PGSIZE := Nat.mod_eq_of_lt (by omega)
      rw [if_pos more, idle offset (Nat.le_refl _) more, ok_bind, next]
      exact ih (fun a low => idle a (by omega)) (by rw [Nat.succ_mul] at enough; omega)
    · exact if_neg more

end Returns

/-- If munmap has a page of mapping m to write to f, then f is open and not a device. -/
def Vm.WritesFile (s : Vm) (m : Mmap) (f : Fin NFILE) : Prop :=
  ∀ a, m.va ≤ a → a < m.va + m.sz → (pgflags s.proc.pgdir a (·.dirty)).isSome →
    (s.fs.file f).writable → ∃ ip, s.fs.IsFile f ip

def Mmap.freedEnd (m : Mmap) : Nat := (2 * m.va + m.sz) % 2 ^ 32

def Mmap.Frees (m : Mmap) (d : PgDir) (v : Nat) : Prop :=
  m.va < m.freedEnd ∧ d.Walks (PGROUNDUP m.va) m.freedEnd v

def Mmap.Owns (m : Mmap) (v : Nat) : Prop :=
  PGROUNDUP m.va ≤ v * PGSIZE ∧ v * PGSIZE < m.va + m.sz

def Mmap.Meets (m : Mmap) (v : Nat) : Prop := ∃ a, m.va ≤ a ∧ a < m.va + m.sz ∧ a / PGSIZE = v

/-- Of the pages in memory, munmap comes by those of the mapping, all of the user's half. -/
def Mmap.FreesOwn (m : Mmap) (d : PgDir) : Prop :=
  ∀ v e, d.entry v = some e → (m.Frees d v ↔ m.Owns v) ∧ (m.Frees d v → v < UPAGES)

structure OwnRange (s t : Vm) (i : Fin MAXMAPPEDFILES) : Prop where
  entry : ∀ v, ¬(s.proc.ommap i).Meets v → t.entry v = s.entry v
  contents : ∀ v e, v < UPAGES → ¬(s.proc.ommap i).Meets v → s.entry v = some e →
    t.kmem.mem e.pa = s.kmem.mem e.pa
  others : ∀ j, j ≠ i → t.proc.ommap j = s.proc.ommap j
  gone : ∀ v, (s.proc.ommap i).Owns v → t.entry v = none

section Unmap
variable {s t : Vm} {i : Fin MAXMAPPEDFILES} {m : Mmap}

theorem Mmap.Owns.meets (own : m.Owns v) (word : m.va < 2 ^ 31) : m.Meets v := by
  have start : PGROUNDUP m.va = (m.va + 4095) / 4096 * 4096 := PGROUNDUP_eq (by omega)
  obtain ⟨low, high⟩ := own
  refine ⟨v * PGSIZE, ?_, high, ?_⟩
  · omega
  · simp only [PGSIZE]
    omega

theorem Mmap.low_of_freed (word : m.va + m.sz + PGSIZE ≤ 2 ^ 32) (some : m.va < m.freedEnd) :
    m.va < 2 ^ 31 ∧ m.freedEnd = 2 * m.va + m.sz := by
  unfold Mmap.freedEnd at some ⊢
  omega

variable {u u' : Uvm} {r : Nat}

theorem Mmap.dealloc_split (owned : u.Owned) (kernel : u.pgdir.KernelMapped)
    (word : m.va + m.sz + PGSIZE ≤ 2 ^ 32) :
    ((∀ v e, u.pgdir.entry v = some e → m.Frees u.pgdir v → v < UPAGES) ∧
      ∃ r u', deallocuvm u m.freedEnd m.va = .ok (r, u') ∧
        (∀ v e, u.pgdir.entry v = some e → (u'.pgdir.entry v = none ↔ m.Frees u.pgdir v)) ∧
        (∀ v, u'.pgdir.entry v = u.pgdir.entry v ∨ u'.pgdir.entry v = none) ∧
        (u.Apart → ∀ v e, v < UPAGES → u'.pgdir.entry v = some e →
          u'.kmem.mem e.pa = u.kmem.mem e.pa)) ∨
    m.va < 2 ^ 31 ∧ ∃ v e, UPAGES ≤ v ∧ u.pgdir.entry v = some e ∧ m.Frees u.pgdir v ∧
      ∀ r u', deallocuvm u m.freedEnd m.va = .ok (r, u') → u'.pgdir.entry v = none ∧
        u'.pgdir.entry UPAGES ≠ none := by
  by_cases some : m.va < m.freedEnd
  · obtain ⟨low, -⟩ := Mmap.low_of_freed word some
    have start : PGROUNDUP m.va = (m.va + 4095) / 4096 * 4096 := PGROUNDUP_eq (by omega)
    have aligned := PGROUNDUP_mod m.va
    have bound : m.freedEnd ≤ PGROUNDUP m.va + NPAGES * PGSIZE := by
      unfold Mmap.freedEnd
      simp only [NPAGES, NPDENTRIES, NPTENTRIES, PGSIZE]
      omega
    have below : PGROUNDUP m.va < KERNBASE + NPTENTRIES * PGSIZE := by
      rw [start]
      simp only [KERNBASE, NPTENTRIES, PGSIZE]
      omega
    have body : deallocuvm u m.freedEnd m.va =
        (deallocuvmLoop (NPAGES + 1) u (PGROUNDUP m.va) m.freedEnd).bind fun u => .ok (m.va, u) :=
      if_neg (by omega)
    rcases deallocuvmLoop_split owned kernel aligned below bound with
      ⟨user, u', done, frees⟩ | ⟨v, e, lower, there, walked, gone⟩
    · refine .inl ⟨fun v e there freed => user v e there freed.2, m.va, u', ?_, fun v e there => ?_,
        fun v => ?_, fun apart => (frees.memory (by omega) aligned apart).2⟩
      · rw [body, done]
        rfl
      · rw [frees.entry_none_iff aligned there, walks_user]
        exact ⟨fun walked => ⟨some, walked.1⟩, fun freed => ⟨freed.2, user v e there freed.2⟩⟩
      · exact ((frees.freed aligned).entry v).imp id And.left
    · refine .inr ⟨low, v, e, lower, there, ⟨some, walked⟩, fun r u' done => ?_⟩
      rw [body] at done
      obtain ⟨w, loop, eq⟩ := bind_ok.mp done
      cases eq
      refine ⟨gone u' loop, fun none => ?_⟩
      obtain ⟨first, here, zero⟩ := kernel UPAGES (Nat.le_refl _) (by decide)
      rcases deallocuvmLoop_entry loop UPAGES with same | ⟨-, f, here', pos⟩
      · rw [same, here] at none
        cases none
      · rw [here] at here'
        cases here'
        exact pos (by rw [zero, Nat.sub_self])
  · have still : ∀ v, ¬m.Frees u.pgdir v := fun v freed => some freed.1
    refine .inl ⟨fun v _ _ freed => absurd freed (still v), m.freedEnd, u, if_pos (by omega), ?_,
      fun v => .inl rfl, fun _ _ _ _ _ => rfl⟩
    intro v e there
    simp [there, still v]

theorem Mmap.Meets.own (meets : m.Meets v) (start : PGROUNDUP m.va ≤ v * PGSIZE) :
    m.Owns v := by
  obtain ⟨a, -, high, rfl⟩ := meets
  exact ⟨start, lt_of_le_of_lt (Nat.div_mul_le_self a PGSIZE) high⟩

theorem munmapAt_returns
    (word : (s.proc.ommap i).va + (s.proc.ommap i).sz + PGSIZE ≤ 2 ^ 32)
    (writes : s.WritesFile (s.proc.ommap i) f)
    (freed : deallocuvm s.uvm (s.proc.ommap i).freedEnd (s.proc.ommap i).va = .ok (r, u)) :
    ∃ w : Vm, munmapAt s i f = .ok ((w.setUvm u).dropMmap i) ∧ w.proc = s.proc := by
  have size : ((s.proc.ommap i).va + (s.proc.ommap i).sz) % 2 ^ 32 =
      (s.proc.ommap i).va + (s.proc.ommap i).sz := Nat.mod_eq_of_lt
        (by simp only [PGSIZE] at word; omega)
  have end_ : ((s.proc.ommap i).va + ((s.proc.ommap i).va + (s.proc.ommap i).sz)) % 2 ^ 32 =
      (s.proc.ommap i).freedEnd := by
    congr 1
    omega
  have loop : ∃ w, writebackLoop f (s.proc.ommap i).va ((s.proc.ommap i).va + (s.proc.ommap i).sz)
      (NPAGES + 1) s (s.proc.ommap i).va = .ok w := by
    have enough : (s.proc.ommap i).va + (s.proc.ommap i).sz ≤
        (s.proc.ommap i).va + NPAGES * PGSIZE := by
      simp only [NPAGES, NPDENTRIES, NPTENTRIES, PGSIZE] at word ⊢
      omega
    by_cases file : ∃ ip, s.fs.IsFile f ip
    · obtain ⟨ip, isFile⟩ := file
      exact writebackLoop_returns isFile word enough
    · refine ⟨s, writebackLoop_idle word (fun a low high => ?_) enough⟩
      unfold writeback
      split
      · rfl
      · rename_i e dirty
        exact if_neg fun writable => file (writes a low high (by rw [dirty]; rfl) writable)
  obtain ⟨w, loop⟩ := loop
  obtain ⟨proc, kmem⟩ := writebackLoop_keeps loop
  have same : w.uvm = s.uvm := by
    unfold Vm.uvm
    rw [proc, kmem]
  refine ⟨w, ?_, proc⟩
  unfold munmapAt unmappages
  dsimp only
  rw [size, loop, ok_bind, end_, same, freed]
  rfl

theorem munmap_found (found : mappingAt s.proc.ommap addr = some i)
    (file : (s.proc.ommap i).pfile = some f) :
    munmap s addr = (munmapAt s i f).bind fun s => .ok (0, s) := by
  unfold munmap
  rw [found]
  dsimp only
  rw [file]
  rfl

theorem munmap_removes (done : munmap s addr = .ok (0, t)) :
    ∃ j f, mappingAt s.proc.ommap addr = some j ∧ (s.proc.ommap j).pfile = some f ∧
      munmapAt s j f = .ok t := by
  unfold munmap at done
  split at done
  · cases done
  · rename_i j found
    split at done
    · cases done
    · rename_i f file
      obtain ⟨w, at_, eq⟩ := bind_ok.mp done
      cases eq
      exact ⟨j, f, found, file, at_⟩

theorem munmapAt_frees (done : munmapAt s i f = .ok t) :
    ∃ r, deallocuvm s.uvm (s.proc.ommap i).freedEnd (s.proc.ommap i).va = .ok (r, t.uvm) := by
  obtain ⟨w, r, u, -, -, -, freed, rfl⟩ := munmapAt_cases done
  refine ⟨r, freed ▸ ?_⟩
  unfold Mmap.freedEnd
  congr 1
  omega

end Unmap

def neighbours : Vm where
  proc :=
    { sz := 0xC000
      ommap := fun i => if i = 0 then ⟨some 0, 0xA000, 100⟩ else if i = 1 then ⟨some 1, 0xB000, 100⟩
        else {}
      pgdir := { page := 0x400
                 tab := fun i => if i = 0 then some 0x401
                   else if 512 ≤ i ∧ i < 568 then some (0x402 + (i - 512)) else none
                 pte := fun v => if v = 0 ∨ 9 ≤ v ∧ v ≤ 11 then some (userPte (0x300 + v))
                   else if UPAGES ≤ v ∧ v < UPAGES + PHYSTOP / PGSIZE
                   then some ⟨v - UPAGES, true, false, false⟩ else none } }
  kmem := { freelist := [0x900] }
  fs := { file := fun f => ⟨.inode, true, true, if f = 0 then some 0 else some 1, 0⟩
          inode := fun _ => { size := 100 } }

theorem neighbours_entry {e : Pte} (there : neighbours.proc.pgdir.entry v = some e) :
    (v = 0 ∨ 9 ≤ v ∧ v ≤ 11) ∧ e = userPte (0x300 + v) ∨ UPAGES ≤ v := by
  simp only [PgDir.entry, neighbours] at there
  grind

theorem neighbours_kernel : neighbours.proc.pgdir.KernelMapped := by
  intro v lower upper
  refine ⟨⟨v - UPAGES, true, false, false⟩, ?_, rfl⟩
  simp only [UPAGES, PHYSTOP, KERNBASE, PGSIZE] at lower upper
  have table : 512 ≤ v / NPTENTRIES ∧ v / NPTENTRIES < 568 := by
    simp only [NPTENTRIES]
    omega
  simp only [PgDir.entry, neighbours, UPAGES, PHYSTOP, KERNBASE, PGSIZE]
  rw [if_pos, if_neg (by omega), if_pos (by omega)]
  rw [if_neg (by omega), if_pos table]
  rfl

theorem neighbours_valid : neighbours.uvm.Valid := by
  refine ⟨by decide, fun x pos => ?_⟩
  rcases Uvm.mem_of_count pos with free | rfl | ⟨i, -, table⟩ | ⟨v, user, e, there, rfl⟩
  · simp only [Vm.uvm, neighbours, List.mem_cons, List.not_mem_nil, or_false] at free
    subst free
    decide
  · decide
  · simp only [Vm.uvm, neighbours] at table ⊢
    grind
  · rcases neighbours_entry there with ⟨page, rfl⟩ | kernel
    · simp only [Vm.uvm, neighbours, userPte, PHYSTOP, PGSIZE]
      omega
    · omega

theorem neighbours_apart : neighbours.uvm.Apart := by
  have owned : ∀ {v f}, neighbours.uvm.pgdir.owner v = some f →
      (v = 0 ∨ 9 ≤ v ∧ v ≤ 11) ∧ f = 0x300 + v := by
    intro v f owner
    unfold PgDir.owner at owner
    split at owner
    · obtain ⟨e, there, rfl⟩ := Option.map_eq_some_iff.mp owner
      rcases neighbours_entry there with ⟨page, rfl⟩ | kernel
      · exact ⟨page, rfl⟩
      · omega
    · cases owner
  refine ⟨fun hv hv' => ?_, fun hv free => ?_, by decide⟩
  · have := owned hv
    have := owned hv'
    omega
  · have := owned hv
    simp only [Vm.uvm, neighbours, List.mem_cons, List.not_mem_nil, or_false] at free
    omega

end MmapXv6
