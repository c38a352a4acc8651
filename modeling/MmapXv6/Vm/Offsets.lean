import MmapXv6.Vm.Layout
import MmapXv6.Vm.Session

/-! The offset of an open file under the accesses to its mappings. The handler hands the
place in the file to fileread through the field off, and munmap hands it to filewrite in
the same way, so both leave the offset behind the last page they moved. -/
namespace MmapXv6

open Lib (bind_ok Reaches)

variable {f : Fin NFILE} {fs : Fs} {n : Nat} {r : Int}

inductive TouchAct where
  | load (a : Nat)
  | store (a : Nat) (b : UInt8)
  | munmap (addr : Nat)

def touchStep (s : Vm) : TouchAct → Except Panic Vm
  | .load a => do
    let (_, s) ← s.load a
    .ok s
  | .store a b => do
    let (_, s) ← s.store a b true
    .ok s
  | .munmap addr => do
    let (_, s) ← munmap s addr
    .ok s

def TouchAct.Mapped (s : Vm) : TouchAct → Prop
  | .load a | .store a _ => ∃ i, InMapping s.proc i a
  | .munmap _ => True

/-- Where the read of a page at an offset leaves the file. The seek stops at the end of
the file, and so does the read, which a file not open for reading does not make. -/
def Fs.pageOff (fs : Fs) (f : Fin NFILE) (ip : Fin NINODE) (offset : Nat) : Nat :=
  let size := (fs.inode ip).size
  let start := min offset size
  if (fs.file f).readable = true ∧ start ≤ (start + PGSIZE) % 2 ^ 32 then min (start + PGSIZE) size
  else start

/-- An access that finds its page or grows the stack, or whose fault leaves the file
where it is. -/
def Vm.Settled (s : Vm) (a : Nat) (write : Bool) : Prop :=
  (s.admits a write true).isSome ∨ InWindow s.proc a ∨
    ∀ i ∈ mmapin s.proc.ommap a, ∀ f ∈ (s.proc.ommap i).pfile, ∀ ip ∈ (s.fs.file f).ip,
      s.fs.pageOff f ip ((PGROUNDDOWN a + 2 ^ 32 - (s.proc.ommap i).va) % 2 ^ 32) =
      (s.fs.file f).off

/-- A mapping from which munmap writes nothing: its file is not open for writing, or no
page of it is dirty. -/
def Vm.Clean (s : Vm) (i : Fin MAXMAPPEDFILES) : Prop :=
  (∀ f ∈ (s.proc.ommap i).pfile, (s.fs.file f).writable = false) ∨
    ∀ n < ((s.proc.ommap i).sz + (PGSIZE - 1)) / PGSIZE,
      (s.proc.ommap i).va + n * PGSIZE < ((s.proc.ommap i).va + (s.proc.ommap i).sz) % 2 ^ 32 →
      pgflags s.proc.pgdir ((s.proc.ommap i).va + n * PGSIZE) (·.dirty) = none

def TouchAct.Still (s : Vm) : TouchAct → Prop
  | .load a => s.Settled a false
  | .store a _ => s.Settled a true
  | .munmap addr => ∀ i ∈ mappingAt s.proc.ommap addr, s.Clean i

instance (s : Vm) (a : Nat) (write : Bool) : Decidable (s.Settled a write) := by
  unfold Vm.Settled InWindow
  infer_instance

instance (s : Vm) (i : Fin MAXMAPPEDFILES) : Decidable (s.Clean i) := by
  unfold Vm.Clean
  infer_instance

instance (s : Vm) : (a : TouchAct) → Decidable (a.Mapped s)
  | .load _ | .store _ _ => inferInstanceAs (Decidable (∃ i, InMapping s.proc i _))
  | .munmap _ => inferInstanceAs (Decidable True)

instance (s : Vm) : (a : TouchAct) → Decidable (a.Still s)
  | .load _ | .store _ _ => inferInstanceAs (Decidable (s.Settled _ _))
  | .munmap addr => inferInstanceAs (Decidable (∀ i ∈ mappingAt s.proc.ommap addr, _))

section Fault
variable {s t : Vm} {a : Nat} {write : Bool}

theorem Fs.setOff_setOff (fs : Fs) (f : Fin NFILE) (m n : Nat) :
    (fs.setOff f m).setOff f n = fs.setOff f n := by
  simp [Fs.setOff]

theorem Fs.setOff_off (fs : Fs) (f : Fin NFILE) (n : Nat) : ((fs.setOff f n).file f).off = n := by
  simp [Fs.setOff]

theorem Fs.setOff_same (same : n = (fs.file f).off) :
    fs.setOff f n = fs := by
  subst same
  simp [Fs.setOff]

theorem fileseek_off {fs' : Fs} (done : fileseek fs f n = .ok fs') :
    ∃ ip, (fs.file f).ip = some ip ∧ fs' = fs.setOff f (min n (fs.inode ip).size) := by
  unfold fileseek at done
  split at done
  · cases done
  · rename_i ip inode
    refine ⟨ip, inode, ?_⟩
    split at done
    · rename_i past
      cases done
      rw [Nat.min_eq_right (Nat.le_of_lt past)]
    · cases done
      rw [Nat.min_eq_left (by omega)]

theorem readi_count {ip : Inode} {off : Nat} {b : Lib.Bytes} (inside : off ≤ ip.size)
    (done : readi ip off n = .ok (r, b)) :
    r = if off ≤ (off + n) % 2 ^ 32 then ((min (off + n) ip.size - off : Nat) : Int) else -1 := by
  unfold readi at done
  split at done
  · cases done
  split at done
  · cases done
    rw [if_neg (by omega)]
  · have size : (if ip.size < off + n then ip.size - off else n) = min (off + n) ip.size - off := by
      split <;> omega
    rw [size] at done
    cases done
    rw [if_pos (by omega)]

theorem fileread_off {fs' : Fs} {ip : Fin NINODE}
    {b : Lib.Bytes} (inode : (fs.file f).ip = some ip)
    (inside : (fs.file f).off ≤ (fs.inode ip).size) (done : fileread fs f n = .ok (r, b, fs')) :
    fs' = fs.setOff f (if (fs.file f).readable = true ∧
      (fs.file f).off ≤ ((fs.file f).off + n) % 2 ^ 32
      then min ((fs.file f).off + n) (fs.inode ip).size else (fs.file f).off) := by
  unfold fileread at done
  dsimp only at done
  split at done
  · rename_i closed
    cases done
    rw [if_neg fun h => closed h.1, Fs.setOff_same rfl]
  rename_i opened
  rw [inode] at done
  split at done
  · cases done
  · cases done
  · cases done
  rename_i i type same
  cases same
  obtain ⟨⟨q, c⟩, read, eq⟩ := bind_ok.mp done
  have count := readi_count inside read
  split at count
  · rename_i plain
    rw [if_pos ⟨not_not.mp opened, plain⟩]
    split at eq
    · cases eq
      congr 1
      omega
    · cases eq
      rw [Fs.setOff_same (by omega)]
  · rename_i wraps
    rw [if_neg fun h => wraps h.2, Fs.setOff_same rfl]
    rw [if_neg (by omega)] at eq
    cases eq
    rfl

theorem loadMapped_off {m : Mmap} {base : Nat} (done : loadMapped s m base = .ok t) :
    ∃ f ip, m.pfile = some f ∧ (s.fs.file f).ip = some ip ∧
      t.fs = s.fs.setOff f (s.fs.pageOff f ip ((base + 2 ^ 32 - m.va) % 2 ^ 32)) := by
  unfold loadMapped at done
  split at done
  · cases done
  · rename_i f file
    obtain ⟨fs, sought, reading⟩ := bind_ok.mp done
    obtain ⟨⟨r, bytes, fs'⟩, read, rest⟩ := bind_ok.mp reading
    obtain ⟨ip, inode, rfl⟩ := fileseek_off sought
    generalize (base + 2 ^ 32 - m.va) % 2 ^ 32 = offset at read ⊢
    have off := Fs.setOff_off s.fs f (min offset (s.fs.inode ip).size)
    have same := (SameFiles.setOff s.fs f (min offset (s.fs.inode ip).size))
    have moved := fileread_off (by rw [same.file.ip, inode])
      (by rw [off, same.inode]; exact Nat.min_le_right _ _) read
    rw [off, same.file.readable, same.inode, Fs.setOff_setOff] at moved
    refine ⟨f, ip, file, inode, ?_⟩
    dsimp only at rest
    split at rest
    · cases rest
      exact moved
    · split at rest
      · cases rest
      · cases rest
        exact moved

theorem access_off {r : Option Pte} (done : s.access a write true = .ok (r, t)) :
    (s.Settled a write ∧ t.fs = s.fs) ∨
    ∃ i f ip, (s.admits a write true = none ∧ ¬InWindow s.proc a ∧ mmapin s.proc.ommap a = some i ∧
        (s.proc.ommap i).pfile = some f ∧ (s.fs.file f).ip = some ip) ∧
      t.fs = s.fs.setOff f
        (s.fs.pageOff f ip ((PGROUNDDOWN a + 2 ^ 32 - (s.proc.ommap i).va) % 2 ^ 32)) := by
  unfold Vm.access at done
  split at done
  · rename_i e there
    cases done
    exact .inl ⟨.inl (by rw [there]; rfl), rfl⟩
  rename_i absent
  obtain ⟨w, trapped, rest⟩ := bind_ok.mp done
  have after : t = w := by
    split at rest
    · cases rest
      rfl
    · split at rest
      · cases rest
        rfl
      · cases rest
  subst after
  unfold trap at trapped
  split at trapped
  · rename_i window
    obtain ⟨⟨q, u⟩, -, trapped⟩ := bind_ok.mp trapped
    dsimp only at trapped
    split at trapped
    · cases trapped
    · cases trapped
      exact .inl ⟨.inr (.inl window), rfl⟩
  rename_i window
  split at trapped
  · rename_i i found
    obtain ⟨⟨q, u⟩, -, trapped⟩ := bind_ok.mp trapped
    dsimp only at trapped
    split at trapped
    · cases trapped
    · obtain ⟨f, ip, file, inode, moved⟩ := loadMapped_off trapped
      exact .inr ⟨i, f, ip, ⟨absent, window, found, file, inode⟩, moved⟩
  · rename_i outside
    rw [if_pos rfl] at trapped
    cases trapped
    refine .inl ⟨.inr (.inr fun i found => ?_), rfl⟩
    rw [outside] at found
    cases found

theorem access_settled {r : Option Pte} (done : s.access a write true = .ok (r, t)) :
    (s.Settled a write → t.fs = s.fs) ∧
      ((∀ f, (t.fs.file f).off = (s.fs.file f).off) → s.Settled a write) := by
  rcases access_off done with ⟨settled, same⟩ |
      ⟨i, f, ip, ⟨absent, window, found, file, inode⟩, moved⟩
  · exact ⟨fun _ => same, fun _ => settled⟩
  · constructor
    · intro settled
      rcases settled with there | inside | stays
      · rw [absent] at there
        cases there
      · exact absurd inside window
      · rw [moved, Fs.setOff_same (stays i found f file ip inode)]
    · intro same
      refine .inr (.inr fun j found' g file' jp inode' => ?_)
      rw [found] at found'
      cases found'
      rw [file] at file'
      cases file'
      rw [inode] at inode'
      cases inode'
      rw [← same f, moved, Fs.setOff_off]

end Fault

section Unmap
variable {s t : Vm} {f : Fin NFILE} {va size n offset : Nat}

theorem writebackLoop_endless (all : ∀ a, a < 2 ^ 32 → a % PGSIZE = va % PGSIZE → a < size)
    (word : offset < 2 ^ 32) (page : offset % PGSIZE = va % PGSIZE) :
    writebackLoop f va size n s offset ≠ .ok t := by
  induction n generalizing s offset with
  | zero => nofun
  | succ n ih =>
    intro done
    unfold writebackLoop at done
    rw [if_pos (all offset word page)] at done
    obtain ⟨w, -, rest⟩ := bind_ok.mp done
    refine ih (Nat.mod_lt _ (by decide)) ?_ rest
    simp only [PGSIZE] at page ⊢
    omega

theorem writebackLoop_clean (bound : size < 2 ^ 32)
    (clean : (s.fs.file f).writable = false ∨ ∀ n, va + n * PGSIZE < size →
      pgflags s.proc.pgdir (va + n * PGSIZE) (·.dirty) = none)
    (page : offset % PGSIZE = va % PGSIZE) (from_ : va ≤ offset)
    (done : writebackLoop f va size n s offset = .ok t) : t = s := by
  induction n generalizing offset with
  | zero => cases done
  | succ n ih =>
    unfold writebackLoop at done
    split at done
    · rename_i below
      obtain ⟨w, first, rest⟩ := bind_ok.mp done
      have stays : w = s := by
        unfold writeback at first
        split at first
        · cases first
          rfl
        · rename_i e dirty
          rcases clean with closed | clean
          · rw [if_neg (by rw [closed]; decide)] at first
            cases first
            rfl
          · have here : va + (offset - va) / PGSIZE * PGSIZE = offset := by
              simp only [PGSIZE] at page ⊢
              omega
            have none := clean ((offset - va) / PGSIZE) (by rw [here]; exact below)
            rw [here, dirty] at none
            cases none
      subst stays
      by_cases last : offset + PGSIZE < 2 ^ 32
      · rw [Nat.mod_eq_of_lt last] at rest
        exact ih (by rw [Nat.add_mod_right]; exact page) (by omega) rest
      · -- the next offset is 0 or a little more, and every later one is below size too
        refine absurd rest
          (writebackLoop_endless (fun a word same => ?_) (Nat.mod_lt _ (by decide)) ?_)
        · simp only [PGSIZE] at last page same
          omega
        · simp only [PGSIZE] at page ⊢
          omega
    · cases done
      rfl

theorem munmap_clean {addr : Nat} (clean : ∀ i ∈ mappingAt s.proc.ommap addr, s.Clean i)
    (done : munmap s addr = .ok (r, t)) : t.fs = s.fs := by
  unfold munmap at done
  split at done
  · cases done
    rfl
  rename_i i found
  split at done
  · cases done
    rfl
  rename_i f file
  obtain ⟨w, unmapped, eq⟩ := bind_ok.mp done
  cases eq
  obtain ⟨x, written, rest⟩ := bind_ok.mp unmapped
  obtain ⟨⟨q, u⟩, -, eq⟩ := bind_ok.mp rest
  cases eq
  have pages : ∀ n va sz, va + n * PGSIZE < (va + sz) % 2 ^ 32 →
      n < (sz + (PGSIZE - 1)) / PGSIZE := by
    intro n va sz below
    simp only [PGSIZE] at below ⊢
    omega
  have same := writebackLoop_clean (Nat.mod_lt _ (by decide)) ((clean i found).imp
    (fun closed => closed f file) fun clean n below => clean n (pages n _ _ below) below)
    rfl (Nat.le_refl _) written
  rw [same]
  rfl

end Unmap

theorem touchStep_still {s t : Vm} {a : TouchAct} (still : a.Still s)
    (done : touchStep s a = .ok t) : t.fs = s.fs := by
  cases a with
  | load a =>
    obtain ⟨⟨b, w⟩, loaded, eq⟩ := bind_ok.mp done
    cases eq
    obtain ⟨⟨r, x⟩, accessed, rest⟩ := bind_ok.mp loaded
    have same := (access_settled accessed).1 still
    cases r <;> cases rest <;> exact same
  | store a b =>
    obtain ⟨⟨ok, w⟩, stored, eq⟩ := bind_ok.mp done
    cases eq
    obtain ⟨⟨r, x⟩, accessed, rest⟩ := bind_ok.mp stored
    have same := (access_settled accessed).1 still
    cases r <;> cases rest <;> exact same
  | munmap addr =>
    obtain ⟨⟨r, w⟩, unmapped, eq⟩ := bind_ok.mp done
    cases eq
    exact munmap_clean still unmapped

def mappedImage : Vm where
  proc := { image.proc with
    sz := 0xB000
    ommap := Function.update image.proc.ommap 0 ⟨some 0, 0xA000, 100⟩ }
  kmem := image.kmem
  fs := image.fs

def loadedImage : Vm :=
  { mappedImage with proc := { mappedImage.proc with
    pgdir := imagePgdir.set 10 (some (userPte 0x903)) } }

end MmapXv6
