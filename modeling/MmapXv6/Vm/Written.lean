import MmapXv6.Vm.Unmap

/-! What munmap leaves in the file, byte by byte. Each dirty page goes back as a whole.
The last page of a mapping reaches beyond the file when the length is no multiple of
PGSIZE, so the file grows, and the last page of a file of nearly the largest size does
not go back at all. -/
namespace MmapXv6

open Lib (bind_ok ok_bind)

def Mmap.dirtyByte (m : Mmap) (s : Vm) (i : Nat) : Option UInt8 :=
  (pgflags s.proc.pgdir (m.va + i) (·.dirty)).map fun e => s.kmem.mem e.pa ((m.va + i) % PGSIZE)

/-- The file keeps its size, and its bytes are those of the dirty pages or the old ones. -/
def WrittenBack (s t : Vm) (m : Mmap) (ip : Fin NINODE) : Prop :=
  (t.fs.inode ip).size = (s.fs.inode ip).size ∧
    ∀ i, i < m.sz → (t.fs.inode ip).data i = (m.dirtyByte s i).getD ((s.fs.inode ip).data i)

/-- The last page is clean, or it ends inside the file, or it ends after the largest file
and has the bytes of the file anyway. -/
def Mmap.LastFits (m : Mmap) (s : Vm) (ip : Inode) : Prop :=
  m.dirtyByte s (m.sz - 1) = none ∨ PGROUNDUP m.sz ≤ ip.size ∨
    MAXFILE * BSIZE < PGROUNDUP m.sz ∧
      ∀ i, (m.sz - 1) / PGSIZE * PGSIZE ≤ i → i < m.sz → m.dirtyByte s i = some (ip.data i)

def Inode.pageBack (ip : Inode) (page : Option Lib.Bytes) (off : Nat) : Inode :=
  match page with
  | none => ip
  | some src => if off + PGSIZE ≤ MAXFILE * BSIZE then ip.withPage src off else ip

section Page
variable {s t : Vm} {f : Fin NFILE} {ip : Fin NINODE} {va lo : Nat}

theorem filewrite_unfit {fs : Fs} (src : Lib.Bytes) (backed : Backed fs f ip)
    (large : MAXFILE * BSIZE < (fs.file f).off + PGSIZE) :
    filewrite fs f src PGSIZE = .ok (-1, fs) := by
  have piece : (if filewriteMax < PGSIZE - 0 then filewriteMax else PGSIZE - 0) = PGSIZE := by
    decide
  have refused : ∀ src, writei (fs.inode ip) src (fs.file f).off PGSIZE =
      .ok (-1, fs.inode ip) := by
    intro src
    unfold writei
    rw [if_neg (by rw [backed.regular]; decide)]
    split
    · rfl
    · rfl
  have first : ∀ n, filewriteLoop f ip src PGSIZE (n + 1) fs 0 = .ok (0, fs) := by
    intro n
    rw [filewriteLoop, if_pos (by decide)]
    dsimp only
    rw [piece, refused]
    rfl
  unfold filewrite
  rw [if_neg (by simp [backed.writable]), backed.type, backed.inode]
  dsimp only
  rw [first]
  rfl

theorem writeback_inode (backed : Backed s.fs f ip) (le : va ≤ lo) (word : lo < 2 ^ 32)
    (inside : lo - va ≤ (s.fs.inode ip).size) (done : writeback s f va lo = .ok t) :
    SameOpen s.fs t.fs ∧ t.fs.inode ip = (s.fs.inode ip).pageBack
      ((pgflags s.proc.pgdir lo (·.dirty)).map fun e => s.kmem.mem e.pa) (lo - va) := by
  have offset : (lo + 2 ^ 32 - va) % 2 ^ 32 = lo - va := by omega
  unfold writeback at done
  split at done
  · rename_i clean
    cases done
    rw [clean]
    exact ⟨fun _ => rfl, rfl⟩
  · rename_i e found
    rw [if_pos backed.writable, offset, fileseek_page backed.inode inside, ok_bind] at done
    have moved : Backed (s.fs.setOff f (lo - va)) f ip := by
      constructor <;> simp [Fs.setOff, backed.type, backed.writable, backed.inode, backed.regular]
    have off : ((s.fs.setOff f (lo - va)).file f).off = lo - va := by simp [Fs.setOff]
    rw [found]
    dsimp only [Option.map_some, Inode.pageBack]
    by_cases fits : lo - va + PGSIZE ≤ MAXFILE * BSIZE
    · rw [filewrite_page _ moved (by rw [off]; exact inside) (by rw [off]; exact fits), off] at done
      cases done
      rw [if_pos fits]
      refine ⟨(SameOpen.setOff s.fs f _).trans (.setOff _ f _), ?_⟩
      simp [Fs.setOff, Fs.setInode]
    · rw [filewrite_unfit _ moved (by rw [off]; omega)] at done
      cases done
      rw [if_neg fits]
      exact ⟨.setOff s.fs f _, rfl⟩

end Page

/-- What the write-back puts at byte i: the pages go to the multiples of PGSIZE. -/
def Mmap.backByte (m : Mmap) (s : Vm) (i : Nat) : Option UInt8 :=
  (pgflags s.proc.pgdir (m.va + i / PGSIZE * PGSIZE) (·.dirty)).map fun e =>
    s.kmem.mem e.pa (i % PGSIZE)

structure PagesBack (s t : Vm) (m : Mmap) (ip : Fin NINODE) (lo : Nat) : Prop where
  data : ∀ i, (t.fs.inode ip).data i =
    if lo ≤ m.va + i / PGSIZE * PGSIZE ∧ i / PGSIZE * PGSIZE < m.sz ∧
      i / PGSIZE * PGSIZE + PGSIZE ≤ MAXFILE * BSIZE
    then (m.backByte s i).getD ((s.fs.inode ip).data i) else (s.fs.inode ip).data i
  size : (t.fs.inode ip).size =
    if lo < m.va + m.sz ∧ (m.backByte s (m.sz - 1)).isSome ∧ PGROUNDUP m.sz ≤ MAXFILE * BSIZE
    then max (s.fs.inode ip).size (PGROUNDUP m.sz) else (s.fs.inode ip).size

section Loop
variable {s t w : Vm} {f : Fin NFILE} {ip : Fin NINODE} {m : Mmap} {lo : Nat}

theorem Inode.pageBack_data (i : Inode) (page : Option Lib.Bytes) (off j : Nat) :
    (i.pageBack page off).data j =
      if off ≤ j ∧ j < off + PGSIZE ∧ off + PGSIZE ≤ MAXFILE * BSIZE
      then (page.map fun src => src (j - off)).getD (i.data j) else i.data j := by
  cases page with
  | none => simp [Inode.pageBack]
  | some src =>
    unfold Inode.pageBack Inode.withPage
    simp only [Option.map_some, Option.getD_some]
    by_cases fits : off + PGSIZE ≤ MAXFILE * BSIZE
    · simp only [fits, if_true, and_true]
    · simp only [fits, if_false, and_false]

theorem Inode.pageBack_size (i : Inode) (page : Option Lib.Bytes) (off : Nat) :
    (i.pageBack page off).size = if page.isSome ∧ off + PGSIZE ≤ MAXFILE * BSIZE
      then max i.size (off + PGSIZE) else i.size := by
  cases page with
  | none => simp [Inode.pageBack]
  | some src =>
    unfold Inode.pageBack Inode.withPage
    simp only [Option.isSome_some, true_and]
    split
    · dsimp only
      split <;> omega
    · rfl

theorem backByte_page {i : Nat} (here : m.va + i / PGSIZE * PGSIZE = lo) :
    m.backByte s i = ((pgflags s.proc.pgdir lo (·.dirty)).map fun e => s.kmem.mem e.pa).map
      fun src => src (i - (lo - m.va)) := by
  have byte : i % PGSIZE = i - (lo - m.va) := by
    simp only [PGSIZE] at here ⊢
    omega
  unfold Mmap.backByte
  rw [here, byte, Option.map_map]
  rfl

theorem backByte_same (proc : w.proc = s.proc) (kmem : w.kmem = s.kmem) (i : Nat) :
    m.backByte w i = m.backByte s i := by
  unfold Mmap.backByte
  rw [proc, kmem]

theorem backByte_aligned (aligned : m.va % PGSIZE = 0) (i : Nat) :
    m.backByte s i = m.dirtyByte s i := by
  have page : (m.va + i / PGSIZE * PGSIZE) / PGSIZE = (m.va + i) / PGSIZE := by
    simp only [PGSIZE] at aligned ⊢
    omega
  have byte : (m.va + i) % PGSIZE = i % PGSIZE := by
    simp only [PGSIZE] at aligned ⊢
    omega
  unfold Mmap.backByte Mmap.dirtyByte pgflags
  rw [page, byte]

theorem writebackLoop_pagesBack {n : Nat} (backed : Backed s.fs f ip) (le : m.va ≤ lo)
    (page : (lo - m.va) % PGSIZE = 0) (word : m.va + m.sz + PGSIZE ≤ 2 ^ 32)
    (most : m.sz ≤ MAXFILE * BSIZE) (inside : m.sz ≤ (s.fs.inode ip).size)
    (done : writebackLoop f m.va (m.va + m.sz) n s lo = .ok t) : PagesBack s t m ip lo := by
  induction n generalizing s lo with
  | zero => cases done
  | succ n ih =>
    unfold writebackLoop at done
    split at done
    · rename_i more
      obtain ⟨w, first, rest⟩ := bind_ok.mp done
      have next : (lo + PGSIZE) % 2 ^ 32 = lo + PGSIZE := Nat.mod_eq_of_lt (by omega)
      rw [next] at rest
      obtain ⟨open_, inode⟩ := writeback_inode backed le (by omega) (by omega) first
      obtain ⟨proc, kmem⟩ := writeback_keeps first
      have size := Inode.pageBack_size (s.fs.inode ip)
        ((pgflags s.proc.pgdir lo (·.dirty)).map fun e => s.kmem.mem e.pa) (lo - m.va)
      have data := Inode.pageBack_data (s.fs.inode ip)
        ((pgflags s.proc.pgdir lo (·.dirty)).map fun e => s.kmem.mem e.pa) (lo - m.va)
      rw [← inode] at size data
      have grown : (s.fs.inode ip).size ≤ (w.fs.inode ip).size := by
        rw [size]
        split <;> omega
      have backed' : Backed w.fs f ip := by
        refine backed.same open_ ?_
        rw [inode]
        unfold Inode.pageBack
        split
        · rfl
        · split <;> rfl
      have page' : (lo + PGSIZE - m.va) % PGSIZE = 0 := by
        simp only [PGSIZE] at page ⊢
        omega
      have tail := ih backed' (by omega) page' (inside.trans grown) rest
      constructor
      · intro i
        rw [tail.data i, data i, backByte_same proc kmem]
        by_cases here : m.va + i / PGSIZE * PGSIZE = lo
        · -- the page at lo is the one of byte i, and no later page reaches it
          have off : i / PGSIZE * PGSIZE = lo - m.va := by omega
          have inside' : lo - m.va ≤ i ∧ i < lo - m.va + PGSIZE := by
            simp only [PGSIZE] at off ⊢
            omega
          rw [if_neg (by omega), ← backByte_page here, off]
          exact if_congr (by omega) rfl rfl
        · have outside : ¬(lo - m.va ≤ i ∧ i < lo - m.va + PGSIZE ∧
              lo - m.va + PGSIZE ≤ MAXFILE * BSIZE) := by
            simp only [PGSIZE] at here page ⊢
            omega
          rw [if_neg outside]
          refine if_congr ?_ rfl rfl
          simp only [PGSIZE] at here page ⊢
          omega
      · rw [tail.size, backByte_same proc kmem]
        have end_ : PGROUNDUP m.sz = (m.sz + 4095) / 4096 * 4096 := by
          refine PGROUNDUP_eq ?_
          simp only [MAXFILE, BSIZE, NDIRECT, NINDIRECT] at most
          omega
        by_cases last : lo + PGSIZE < m.va + m.sz
        · -- a page before the last one ends inside the file
          have same : (w.fs.inode ip).size = (s.fs.inode ip).size := by
            rw [size]
            split <;> omega
          simp only [last, more, same]
        · have off : PGROUNDUP m.sz = lo - m.va + PGSIZE := by
            rw [end_]
            simp only [PGSIZE] at page last ⊢
            omega
          have here : m.va + (m.sz - 1) / PGSIZE * PGSIZE = lo := by
            simp only [PGSIZE] at page last ⊢
            omega
          rw [if_neg (by omega), size, off, backByte_page here]
          simp only [more, true_and, Option.isSome_map]
    · cases done
      exact ⟨fun i => (if_neg (by omega)).symm, (if_neg (by omega)).symm⟩

theorem dirtyByte_isSome {i j : Nat} (aligned : m.va % PGSIZE = 0)
    (page : i / PGSIZE = j / PGSIZE) : (m.dirtyByte s i).isSome = (m.dirtyByte s j).isSome := by
  have same : (m.va + i) / PGSIZE = (m.va + j) / PGSIZE := by
    simp only [PGSIZE] at aligned page ⊢
    omega
  unfold Mmap.dirtyByte pgflags
  rw [same, Option.isSome_map, Option.isSome_map]

theorem PagesBack.written_iff (back : PagesBack s t m ip m.va) (aligned : m.va % PGSIZE = 0)
    (pos : 0 < m.sz) (inside : m.sz ≤ (s.fs.inode ip).size)
    (most : (s.fs.inode ip).size ≤ MAXFILE * BSIZE) :
    WrittenBack s t m ip ↔ m.LastFits s (s.fs.inode ip) := by
  have end_ : PGROUNDUP m.sz = (m.sz - 1) / PGSIZE * PGSIZE + PGSIZE := by
    have small : m.sz ≤ 71680 := inside.trans most
    rw [PGROUNDUP_eq (by omega)]
    simp only [PGSIZE]
    omega
  have data : ∀ i, i < m.sz → (t.fs.inode ip).data i =
      if i / PGSIZE * PGSIZE + PGSIZE ≤ MAXFILE * BSIZE
      then (m.dirtyByte s i).getD ((s.fs.inode ip).data i) else (s.fs.inode ip).data i := by
    intro i less
    have start : i / PGSIZE * PGSIZE < m.sz := lt_of_le_of_lt (Nat.div_mul_le_self _ _) less
    rw [back.data i, backByte_aligned aligned]
    exact if_congr (by omega) rfl rfl
  unfold WrittenBack Mmap.LastFits
  rw [back.size, backByte_aligned aligned]
  constructor
  · rintro ⟨kept, bytes⟩
    cases dirty : m.dirtyByte s (m.sz - 1) with
    | none => exact .inl rfl
    | some b =>
      right
      by_cases fits : PGROUNDUP m.sz ≤ MAXFILE * BSIZE
      · rw [if_pos ⟨by omega, by rw [dirty]; rfl, fits⟩] at kept
        exact .inl (by omega)
      · refine .inr ⟨by omega, fun j low high => ?_⟩
        have page : j / PGSIZE = (m.sz - 1) / PGSIZE := by
          simp only [PGSIZE] at low ⊢
          omega
        have last : (m.dirtyByte s j).isSome := by
          rw [dirtyByte_isSome aligned page, dirty]
          rfl
        obtain ⟨c, some⟩ := Option.isSome_iff_exists.mp last
        have here := bytes j high
        rw [data j high, if_neg (by rw [page]; omega), some, Option.getD_some] at here
        rw [some, here]
  · intro fits
    constructor
    · split
      · rename_i grows
        obtain ⟨-, dirty, small⟩ := grows
        rcases fits with clean | file | ⟨large, -⟩
        · rw [clean] at dirty
          cases dirty
        · omega
        · omega
      · rfl
    · intro j high
      rw [data j high]
      split
      · rfl
      · rename_i large
        -- a page that does not fit is the last one
        have page : j / PGSIZE = (m.sz - 1) / PGSIZE := by
          have small : m.sz ≤ 71680 := inside.trans most
          simp only [PGSIZE, MAXFILE, BSIZE, NDIRECT, NINDIRECT] at large ⊢
          omega
        rcases fits with clean | file | ⟨-, same⟩
        · have none := dirtyByte_isSome (s := s) aligned page
          rw [clean, Option.isSome_none, Option.isSome_eq_false_iff,
            Option.isNone_iff_eq_none] at none
          rw [none, Option.getD_none]
        · rw [page] at large
          omega
        · have low : (m.sz - 1) / PGSIZE * PGSIZE ≤ j := page ▸ Nat.div_mul_le_self j PGSIZE
          rw [same j low high, Option.getD_some]

end Loop

/-- munmap returns unless it runs into the kernel, and it has written back exactly the
file if and only if the last page fits. -/
theorem munmap_writes_exactly {s : Vm} {i : Fin MAXMAPPEDFILES} {f : Fin NFILE} {ip : Fin NINODE}
    (found : mappingAt s.proc.ommap (s.proc.ommap i).va = some i)
    (file : (s.proc.ommap i).pfile = some f) (backed : Backed s.fs f ip)
    (aligned : (s.proc.ommap i).va % PGSIZE = 0)
    (word : (s.proc.ommap i).va + (s.proc.ommap i).sz + PGSIZE ≤ 2 ^ 32)
    (pos : 0 < (s.proc.ommap i).sz) (inside : (s.proc.ommap i).sz ≤ (s.fs.inode ip).size)
    (most : (s.fs.inode ip).size ≤ MAXFILE * BSIZE) (valid : s.uvm.Valid) :
    (2 * (s.proc.ommap i).va + (s.proc.ommap i).sz ≤ KERNBASE →
      ∃ t, munmap s (s.proc.ommap i).va = .ok (0, t)) ∧
    ∀ t, munmap s (s.proc.ommap i).va = .ok (0, t) →
      (WrittenBack s t (s.proc.ommap i) ip ↔ (s.proc.ommap i).LastFits s (s.fs.inode ip)) := by
  constructor
  · intro low
    have end_ : (s.proc.ommap i).freedEnd ≤ KERNBASE := (Nat.mod_le _ _).trans low
    have returns : ∃ r u, deallocuvm s.uvm (s.proc.ommap i).freedEnd
        (s.proc.ommap i).va = .ok (r, u) :=
      deallocuvm_returns end_ valid
    obtain ⟨r, u, freed⟩ := returns
    have isFile : s.fs.IsFile f ip :=
      ⟨backed.type, backed.inode, by rw [backed.regular]; decide⟩
    obtain ⟨w, at_, -⟩ := munmapAt_returns word (fun _ _ _ _ _ => ⟨ip, isFile⟩) freed
    exact ⟨_, by rw [munmap_found found file, at_]; rfl⟩
  · intro t done
    rw [munmap_found found file] at done
    obtain ⟨x, at_, eq⟩ := bind_ok.mp done
    cases eq
    obtain ⟨w, _, u, loop, -, -, -, rfl⟩ := munmapAt_cases at_
    generalize s.proc.ommap i = m at aligned word pos inside loop
    have size : (m.va + m.sz) % 2 ^ 32 = m.va + m.sz :=
      Nat.mod_eq_of_lt (by simp only [PGSIZE] at word; omega)
    rw [size] at loop
    have back :=
      writebackLoop_pagesBack backed (Nat.le_refl _) (by simp) word (inside.trans most) inside loop
    exact back.written_iff aligned pos inside most

def mappedFile (size : Nat) : Vm where
  proc :=
    { sz := 0xB000
      ommap := fun i => if i = 0 then ⟨some 0, 0xA000, size⟩ else {}
      pgdir := { page := 0x400
                 tab := fun i => if i = 0 then some 0x401 else none
                 pte := fun v => if v = 10 then
                 some { userPte 0x30A with dirty := true } else none } }
  kmem := { freelist := [0x900], mem := fun _ _ => 7 }
  fs := { file := fun _ => ⟨.inode, true, true, some 0, 0⟩, inode := fun _ => { size := size } }

theorem mappedFile_valid (size : Nat) : (mappedFile size).uvm.Valid := by
  refine ⟨show 0 < 0x115 by decide, fun x pos => ?_⟩
  change 0x115 ≤ x ∧ x < PHYSTOP / PGSIZE
  rcases Uvm.mem_of_count pos with free | rfl | ⟨i, -, table⟩ | ⟨v, -, e, there, rfl⟩
  · simp only [Vm.uvm, mappedFile, List.mem_cons, List.not_mem_nil, or_false] at free
    subst free
    decide
  · exact ⟨by simp [Vm.uvm, mappedFile], by simp [Vm.uvm, mappedFile, PHYSTOP, PGSIZE]⟩
  · simp only [Vm.uvm, mappedFile] at table
    grind
  · simp only [PgDir.entry, Vm.uvm, mappedFile] at there
    grind [userPte]

/-- A file of one whole page. -/
theorem munmap_writes_exactly_page : ∃ t, munmap (mappedFile 4096) 0xA000 = .ok (0, t) ∧
    WrittenBack (mappedFile 4096) t ((mappedFile 4096).proc.ommap 0) 0 := by
  obtain ⟨returns, exactly⟩ := munmap_writes_exactly (s := mappedFile 4096) (i := 0) (f := 0)
    (by decide) rfl (⟨rfl, rfl, rfl, rfl⟩ : Backed _ 0 0) (by decide) (by decide) (by decide)
      (by decide) (by decide)
    (mappedFile_valid 4096)
  obtain ⟨t, done⟩ := returns (by decide)
  exact ⟨t, done, (exactly t done).mpr (.inr (.inl (by decide)))⟩

/-- A file of 100 bytes has 4096 bytes afterwards. -/
theorem munmap_grows_file : ∃ t, munmap (mappedFile 100) 0xA000 = .ok (0, t) ∧
    ((mappedFile 100).fs.inode 0).size = 100 ∧ (t.fs.inode 0).size = 4096 := by
  have returned : ((munmap (mappedFile 100) 0xA000).toOption.map fun r =>
      (r.1, (r.2.fs.inode 0).size)) =
      some (0, 4096) := by decide +kernel
  obtain ⟨⟨q, t⟩, done, same⟩ := Lib.ok_of_eval returned
  obtain ⟨rfl, size⟩ := Prod.mk.inj same
  exact ⟨t, done, rfl, size⟩

end MmapXv6
