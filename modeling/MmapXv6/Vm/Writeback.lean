import MmapXv6.Vm.Fault

/-! What the write-back loop of munmap leaves in the file. One page that fits under
the largest file size is written in one piece at its own offset. By induction over the
loop, each dirty page of the mapping is in the file, and nothing before it changes. -/
namespace MmapXv6

open Lib (bind_ok)

variable {f : Fin NFILE} {fs : Fs} {ip : Fin NINODE}

/-- The file a mapping writes to: a regular file, open for writing. -/
structure Backed (fs : Fs) (f : Fin NFILE) (ip : Fin NINODE) : Prop where
  type : (fs.file f).type = .inode
  writable : (fs.file f).writable = true
  inode : (fs.file f).ip = some ip
  regular : (fs.inode ip).type = .file

theorem Backed.same {fs' : Fs} (h : Backed fs f ip)
    (file : SameOpen fs fs') (type : (fs'.inode ip).type = (fs.inode ip).type) :
    Backed fs' f ip where
  type := (file.type f).trans h.type
  writable := (file.writable f).trans h.writable
  inode := (file.ip f).trans h.inode
  regular := type.trans h.regular

def Inode.withPage (ip : Inode) (src : Lib.Bytes) (off : Nat) : Inode :=
  { ip with
    data := fun j => if off ≤ j ∧ j < off + PGSIZE then src (j - off) else ip.data j
    size := if ip.size < off + PGSIZE then off + PGSIZE else ip.size }

theorem writei_page {ip : Inode} (src : Lib.Bytes) {off : Nat} (regular : ip.type = .file)
    (inside : off ≤ ip.size) (fits : off + PGSIZE ≤ MAXFILE * BSIZE) :
    writei ip src off PGSIZE = .ok (PGSIZE, ip.withPage src off) := by
  simp only [PGSIZE, MAXFILE, BSIZE, NDIRECT, NINDIRECT] at fits
  unfold writei
  rw [if_neg (by rw [regular]; decide), if_neg (by simp only [PGSIZE]; omega),
    if_neg (by simp only [PGSIZE, MAXFILE, BSIZE, NDIRECT, NINDIRECT]; omega)]
  rfl

theorem filewrite_page (src : Lib.Bytes)
    (backed : Backed fs f ip) (inside : (fs.file f).off ≤ (fs.inode ip).size)
    (fits : (fs.file f).off + PGSIZE ≤ MAXFILE * BSIZE) :
    filewrite fs f src PGSIZE = .ok (PGSIZE,
      (fs.setInode ip ((fs.inode ip).withPage src (fs.file f).off)).setOff f
        ((fs.file f).off + PGSIZE)) := by
  have piece : (if filewriteMax < PGSIZE - 0 then filewriteMax else PGSIZE - 0) = PGSIZE := by
    decide
  have whole : (fun j => src (0 + j)) = src := by
    funext j
    rw [Nat.zero_add]
  have first : ∀ n, filewriteLoop f ip src PGSIZE (n + 2) fs 0 = .ok (PGSIZE,
      (fs.setInode ip ((fs.inode ip).withPage src (fs.file f).off)).setOff f
        ((fs.file f).off + PGSIZE)) := by
    intro n
    rw [filewriteLoop, if_pos (by decide)]
    dsimp only
    rw [piece, whole, writei_page src backed.regular inside fits]
    rfl
  unfold filewrite
  rw [if_neg (by simp [backed.writable]), backed.type, backed.inode]
  dsimp only
  rw [first 4095]
  rfl

theorem fileseek_page {off : Nat}
    (inode : (fs.file f).ip = some ip) (inside : off ≤ (fs.inode ip).size) :
    fileseek fs f off = .ok (fs.setOff f off) := by
  unfold fileseek
  rw [inode]
  dsimp only
  rw [if_neg (by omega)]

structure WroteBack (s t : Vm) (ip : Fin NINODE) (va lo hi : Nat) : Prop where
  file : SameOpen s.fs t.fs
  other : ∀ i, i ≠ ip → t.fs.inode i = s.fs.inode i
  type : (t.fs.inode ip).type = (s.fs.inode ip).type
  size : (s.fs.inode ip).size ≤ (t.fs.inode ip).size
  before : ∀ i, va + i < lo → (t.fs.inode ip).data i = (s.fs.inode ip).data i
  dirty : ∀ i e, lo ≤ va + i → va + i < hi → s.entry ((va + i) / PGSIZE) = some e →
    e.dirty = true → (t.fs.inode ip).data i = s.kmem.mem e.pa ((va + i) % PGSIZE)

section Loop
variable {s t w : Vm} {f : Fin NFILE} {ip : Fin NINODE} {va lo mid hi : Nat}

theorem WroteBack.refl (s : Vm) (ip : Fin NINODE) (va : Nat) {lo hi : Nat}
    (clean : ∀ i e, lo ≤ va + i → va + i < hi → s.entry ((va + i) / PGSIZE) = some e →
      e.dirty ≠ true) : WroteBack s s ip va lo hi :=
  ⟨fun _ => rfl, fun _ _ => rfl, rfl, Nat.le_refl _, fun _ _ => rfl,
    fun i e low high there dirty => absurd dirty (clean i e low high there)⟩

theorem WroteBack.trans (h : WroteBack s w ip va lo mid) (h' : WroteBack w t ip va mid hi)
    (le : lo ≤ mid) (proc : w.proc = s.proc) (kmem : w.kmem = s.kmem) :
    WroteBack s t ip va lo hi where
  file := h.file.trans h'.file
  other := fun i ne => (h'.other i ne).trans (h.other i ne)
  type := h'.type.trans h.type
  size := h.size.trans h'.size
  before := fun i less => (h'.before i (by omega)).trans (h.before i less)
  dirty := fun i e low high there dirty => by
    by_cases early : va + i < mid
    · rw [h'.before i early]
      exact h.dirty i e low early there dirty
    · rw [← kmem]
      refine h'.dirty i e (by omega) high ?_ dirty
      unfold Vm.entry
      rw [proc]
      exact there

/-- One pass of the loop. The page at lo starts at a multiple of PGSIZE in the file,
because the mapping starts at a page boundary. -/
theorem writeback_wrote (backed : Backed s.fs f ip) (aligned : va % PGSIZE = 0)
    (page : lo % PGSIZE = 0) (le : va ≤ lo) (word : lo < 2 ^ 32)
    (inside : lo - va ≤ (s.fs.inode ip).size) (fits : lo - va + PGSIZE ≤ MAXFILE * BSIZE)
    (done : writeback s f va lo = .ok t) : WroteBack s t ip va lo (lo + PGSIZE) := by
  have same : ∀ i, lo ≤ va + i → va + i < lo + PGSIZE →
      (va + i) / PGSIZE = lo / PGSIZE ∧ (va + i) % PGSIZE = i - (lo - va) := by
    intro i low high
    simp only [PGSIZE] at aligned page high ⊢
    omega
  have offset : (lo + 2 ^ 32 - va) % 2 ^ 32 = lo - va := by omega
  unfold writeback at done
  split at done
  · rename_i clean
    cases done
    apply WroteBack.refl
    intro i e low high there dirty
    rw [(same i low high).1] at there
    have found : pgflags s.proc.pgdir lo (·.dirty) = some e :=
      Option.filter_eq_some_iff.mpr ⟨there, dirty⟩
    rw [clean] at found
    cases found
  · rename_i e found
    have there : s.entry (lo / PGSIZE) = some e := (Option.filter_eq_some_iff.mp found).1
    -- fileseek would stop at the end of the file, but the page starts inside it
    rw [if_pos backed.writable, offset, fileseek_page backed.inode inside] at done
    have moved : Backed (s.fs.setOff f (lo - va)) f ip := by
      constructor <;> simp [Fs.setOff, backed.type, backed.writable, backed.inode, backed.regular]
    have off : ((s.fs.setOff f (lo - va)).file f).off = lo - va := by simp [Fs.setOff]
    rw [Lib.ok_bind, filewrite_page _ moved (by rw [off]; exact inside) (by rw [off]; exact fits),
      off] at done
    cases done
    constructor
    · exact (SameOpen.setOff s.fs f _).trans (.setOff _ f _)
    · intro i ne
      simp [Fs.setOff, Fs.setInode, ne]
    · simp [Fs.setOff, Fs.setInode, Inode.withPage]
    · have grows : ∀ a b : Nat, a ≤ if a < b then b else a := by
        intro a b
        split <;> omega
      simp only [Fs.setOff, Fs.setInode, Function.update_self]
      exact grows _ _
    · intro i less
      simp only [Fs.setOff, Fs.setInode, Inode.withPage, Function.update_self]
      rw [if_neg (by omega)]
    · intro i e' low high there' dirty
      obtain ⟨index, byte⟩ := same i low high
      rw [index, there] at there'
      cases there'
      simp only [Fs.setOff, Fs.setInode, Inode.withPage, Function.update_self]
      rw [if_pos (by omega), byte]

theorem writebackLoop_wrote {sz n : Nat} (backed : Backed s.fs f ip) (aligned : va % PGSIZE = 0)
    (page : lo % PGSIZE = 0) (le : va ≤ lo) (low : va + sz ≤ KERNBASE)
    (small : sz ≤ MAXFILE * BSIZE / PGSIZE * PGSIZE) (inside : sz ≤ (s.fs.inode ip).size)
    (done : writebackLoop f va (va + sz) n s lo = .ok t) :
    WroteBack s t ip va lo (va + sz) := by
  induction n generalizing s lo with
  | zero => cases done
  | succ n ih =>
    unfold writebackLoop at done
    split at done
    · obtain ⟨w, first, rest⟩ := bind_ok.mp done
      have next : (lo + PGSIZE) % 2 ^ 32 = lo + PGSIZE := by
        simp only [PGSIZE, KERNBASE] at low ⊢
        omega
      have page' : (lo + PGSIZE) % PGSIZE = 0 := by
        simp only [PGSIZE] at page ⊢
        omega
      have word : lo < 2 ^ 32 := by
        omega
      have fits : lo - va + PGSIZE ≤ MAXFILE * BSIZE := by
        simp only [PGSIZE, MAXFILE, BSIZE, NDIRECT, NINDIRECT] at aligned page small ⊢
        omega
      rw [next] at rest
      have wrote := writeback_wrote backed aligned page le word (by omega) fits first
      obtain ⟨proc, kmem⟩ := writeback_keeps first
      have backed' := backed.same wrote.file wrote.type
      exact wrote.trans (ih backed' page' (by omega) (inside.trans wrote.size) rest)
        (Nat.le_add_right _ _) proc kmem
    · cases done
      apply WroteBack.refl
      intro i e low high
      omega

end Loop

end MmapXv6
