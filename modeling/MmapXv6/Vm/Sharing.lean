import MmapXv6.Vm.Offsets
import Mathlib.Data.Fintype.Defs

/-! Processes that share a struct file and fault on their mappings of it. The handler
sets the offset in one step and reads in another, each under the lock of the inode but
not both under one, so other handlers and calls on the descriptor come in between. The
buffer of a read call is left out, since nothing here depends on it. -/
namespace MmapXv6

open Lib (bind_ok Reaches)
open Function (update update_eq_self update_of_ne update_self)

section Halves

def seekMapped (s : Vm) (m : Mmap) (basepgaddr : Nat) : Except Panic Vm :=
  match m.pfile with
  | none => .error .nullInode
  | some f => do
    let fs ← fileseek s.fs f ((basepgaddr + 2 ^ 32 - m.va) % 2 ^ 32)
    .ok { s with fs := fs }

def readMapped (s : Vm) (m : Mmap) (basepgaddr : Nat) : Except Panic Vm :=
  match m.pfile with
  | none => .error .nullInode
  | some f => do
    let (r, bytes, fs) ← fileread s.fs f PGSIZE
    let s := { s with fs := fs }
    if r ≤ 0 then .ok s
    else match s.entry (basepgaddr / PGSIZE) with
      | none => .error .absentPage
      | some e =>
        let old := s.kmem.mem e.pa
        .ok (s.fill (basepgaddr / PGSIZE) e fun j => if j < r.toNat then bytes j else old j)

/-- The T_PGFLT branch up to the seek. A fault that needs no file ends here, and the
others go on with a mapping and a page. -/
def trapSeek (s : Vm) (cr2 : Nat) : Except Panic (Vm × Option (Mmap × Nat)) :=
  let basepgaddr := PGROUNDDOWN cr2
  if s.proc.sstack ≤ cr2 ∧ cr2 < (s.proc.sstack + MAXSTACKPAGES * PGSIZE) % 2 ^ 32 then do
    let (r, u) ← allocuvm s.uvm basepgaddr ((basepgaddr + PGSIZE) % 2 ^ 32)
    if r = 0 then .error .trapAllocStack else .ok (s.setUvm u, none)
  else match mmapin s.proc.ommap cr2 with
    | some i => do
      let (r, u) ← allocuvm s.uvm basepgaddr ((basepgaddr + PGSIZE) % 2 ^ 32)
      if r = 0 then .error .trapAllocMmap
      else do
        let s ← seekMapped (s.setUvm u) (s.proc.ommap i) basepgaddr
        .ok (s, some (s.proc.ommap i, basepgaddr))
    | none => .ok ({ s with proc := { s.proc with killed := true } }, none)

def trapRead (s : Vm) : Option (Mmap × Nat) → Except Panic Vm
  | none => .ok s
  | some (m, basepgaddr) => readMapped s m basepgaddr

theorem seekMapped_proc {s t : Vm} {m : Mmap} {base : Nat} (done : seekMapped s m base = .ok t) :
    t.proc = s.proc := by
  unfold seekMapped at done
  split at done
  · cases done
  · obtain ⟨fs, -, eq⟩ := bind_ok.mp done
    cases eq
    rfl

theorem loadMapped_halves (s : Vm) (m : Mmap) (base : Nat) :
    loadMapped s m base = seekMapped s m base >>= fun t => readMapped t m base := by
  unfold loadMapped seekMapped
  cases file : m.pfile with
  | none => rfl
  | some f =>
    dsimp only
    cases fileseek s.fs f ((base + 2 ^ 32 - m.va) % 2 ^ 32) with
    | error e => rfl
    | ok fs =>
      change _ = readMapped { s with fs := fs } m base
      rw [readMapped, file]
      rfl

/-- Both halves one after the other are the handler of a fault in user mode. -/
theorem trap_halves (s : Vm) (cr2 : Nat) :
    trap s cr2 true = trapSeek s cr2 >>= fun (t, h) => trapRead t h := by
  unfold trap trapSeek
  dsimp only
  split
  · cases allocuvm s.uvm (PGROUNDDOWN cr2) ((PGROUNDDOWN cr2 + PGSIZE) % 2 ^ 32) with
    | error e => rfl
    | ok result =>
      dsimp only [bind, Except.bind]
      split <;> rfl
  · cases mmapin s.proc.ommap cr2 with
    | none => rfl
    | some i =>
      cases allocuvm s.uvm (PGROUNDDOWN cr2) ((PGROUNDDOWN cr2 + PGSIZE) % 2 ^ 32) with
      | error e => rfl
      | ok result =>
        dsimp only [bind, Except.bind]
        split
        · rfl
        · rw [loadMapped_halves]
          cases sought : seekMapped (s.setUvm result.2) (s.proc.ommap i) (PGROUNDDOWN cr2) with
          | error e => rfl
          | ok t =>
            change _ = readMapped t (t.proc.ommap i) _
            rw [seekMapped_proc sought]
            rfl

end Halves

/-- The field handler is the place of a process in its page-fault handler, between the
seek and the read. -/
structure Sharing (P : Type) where
  proc : P → Proc
  kmem : Kmem := {}
  fs : Fs := {}
  handler : P → Option (Mmap × Nat) := fun _ => none

inductive ShareAct (P : Type) where
  | fault (p : P) (cr2 : Nat)
  | fill (p : P)
  | fileread (p : P) (f : Fin NFILE) (n : Nat)
  | fileseek (p : P) (f : Fin NFILE) (newoffset : Nat)

namespace Sharing
variable {P : Type} [DecidableEq P]

def view (s : Sharing P) (p : P) : Vm := ⟨s.proc p, s.kmem, s.fs⟩

def install (s : Sharing P) (p : P) (v : Vm) (h : Option (Mmap × Nat)) : Sharing P where
  proc := update s.proc p v.proc
  kmem := v.kmem
  fs := v.fs
  handler := update s.handler p h

def step (s : Sharing P) : ShareAct P → Except Panic (Sharing P)
  | .fault p cr2 =>
    if (s.handler p).isSome then .ok s
    else do
      let (v, h) ← trapSeek (s.view p) cr2
      .ok (s.install p v h)
  | .fill p => do
    let v ← trapRead (s.view p) (s.handler p)
    .ok (s.install p v none)
  | .fileread p f n =>
    if (s.handler p).isSome then .ok s
    else do
      let (_, _, fs) ← fileread s.fs f n
      .ok { s with fs := fs }
  | .fileseek p f newoffset =>
    if (s.handler p).isSome then .ok s
    else do
      let fs ← fileseek s.fs f newoffset
      .ok { s with fs := fs }

def Busy (s : Sharing P) (f : Fin NFILE) : Prop := ∃ q, ∃ h ∈ s.handler q, h.1.pfile = some f

instance [Fintype P] (s : Sharing P) (f : Fin NFILE) : Decidable (s.Busy f) :=
  inferInstanceAs (Decidable (∃ q, ∃ h ∈ s.handler q, h.1.pfile = some f))

def Received (s : Sharing P) (p : P) (m : Mmap) (base : Nat) : Prop :=
  ∃ f ip, m.pfile = some f ∧ (s.fs.file f).ip = some ip ∧
    ∀ j < PGSIZE, base - m.va + j < (s.fs.inode ip).size →
      ∃ e, (s.proc p).pgdir.entry (base / PGSIZE) = some e ∧
        s.kmem.mem e.pa j = (s.fs.inode ip).data (base - m.va + j)

end Sharing

/-- The steps that keep out of a handler's way. A fault on a mapping is one on a file
open for reading, at a page that starts in the mapping. -/
def ShareAct.Calm {P : Type} (s : Sharing P) : ShareAct P → Prop
  | .fault p cr2 => ¬InWindow (s.proc p) cr2 → ∀ i ∈ mmapin (s.proc p).ommap cr2,
      ∀ f ∈ ((s.proc p).ommap i).pfile,
        ¬s.Busy f ∧ (s.fs.file f).readable = true ∧ ((s.proc p).ommap i).va ≤ PGROUNDDOWN cr2
  | .fill _ => True
  | .fileread _ f _ | .fileseek _ f _ => ¬s.Busy f

section Files
variable {fs fs' : Fs} {f g : Fin NFILE} {ip : Fin NINODE} {n : Nat}

theorem Fs.setOff_other (fs : Fs) (n : Nat) (ne : g ≠ f) : (fs.setOff f n).file g = fs.file g := by
  simp [Fs.setOff, ne]

theorem fileseek_other (done : fileseek fs f n = .ok fs') (ne : g ≠ f) :
    fs'.file g = fs.file g := by
  obtain ⟨ip, -, rfl⟩ := fileseek_off done
  exact fs.setOff_other _ ne

theorem fileread_other {r : Int} {b : Lib.Bytes} (done : fileread fs f n = .ok (r, b, fs'))
    (ne : g ≠ f) : fs'.file g = fs.file g := by
  unfold fileread at done
  dsimp only at done
  split at done
  · cases done
    rfl
  split at done
  · cases done
  · cases done
  · cases done
  obtain ⟨⟨q, c⟩, -, eq⟩ := bind_ok.mp done
  split at eq
  · cases eq
    exact fs.setOff_other _ ne
  · cases eq
    rfl

theorem fileread_bytes {r : Int} {b : Lib.Bytes} (readable : (fs.file f).readable = true)
    (inode : (fs.file f).ip = some ip) (inside : (fs.file f).off ≤ (fs.inode ip).size)
    (word : (fs.file f).off + n < 2 ^ 32) (done : fileread fs f n = .ok (r, b, fs')) :
    r = (min ((fs.file f).off + n) (fs.inode ip).size - (fs.file f).off : Nat) ∧
      ∀ j, b j = (fs.inode ip).data ((fs.file f).off + j) := by
  unfold fileread at done
  rw [if_neg (not_not.mpr readable), inode] at done
  split at done
  · cases done
  · cases done
  · cases done
  rename_i i type same
  cases same
  obtain ⟨⟨q, c⟩, read, eq⟩ := bind_ok.mp done
  cases eq
  have count := readi_count inside read
  rw [Nat.mod_eq_of_lt word, if_pos (Nat.le_add_right _ _)] at count
  refine ⟨count, fun j => ?_⟩
  unfold readi at read
  split at read
  · cases read
  · rw [if_neg (by omega)] at read
    cases read
    rfl

end Files

section Invariant
variable {P : Type} {s t : Sharing P} {p : P} {m : Mmap} {base : Nat}

structure Sought (fs : Fs) (m : Mmap) (base : Nat) (f : Fin NFILE) (ip : Fin NINODE) : Prop where
  file : m.pfile = some f
  inode : (fs.file f).ip = some ip
  readable : (fs.file f).readable = true
  off : (fs.file f).off = min (base - m.va) (fs.inode ip).size

theorem Sought.same {fs fs' : Fs} {f : Fin NFILE} {ip : Fin NINODE} (h : Sought fs m base f ip)
    (file : fs'.file f = fs.file f) (inode : fs'.inode = fs.inode) : Sought fs' m base f ip where
  file := h.file
  inode := by rw [file, h.inode]
  readable := by rw [file, h.readable]
  off := by rw [file, inode, h.off]

structure SharingInv (s : Sharing P) : Prop where
  sizes : ∀ ip, (s.fs.inode ip).size ≤ MAXFILE * BSIZE
  sought : ∀ p m base, s.handler p = some (m, base) → ∃ f ip, Sought s.fs m base f ip
  alone : ∀ p q m m' base base' f, s.handler p = some (m, base) → s.handler q = some (m', base') →
    m.pfile = some f → m'.pfile = some f → p = q

theorem SharingInv.untouched (inv : SharingInv s) (handler : t.handler = s.handler)
    (inode : t.fs.inode = s.fs.inode)
    (file : ∀ f, s.Busy f → t.fs.file f = s.fs.file f) : SharingInv t := by
  refine ⟨fun ip => ?_, fun q m base here => ?_, ?_⟩
  · rw [inode]
    exact inv.sizes ip
  · rw [handler] at here
    obtain ⟨f, ip, sought⟩ := inv.sought q m base here
    exact ⟨f, ip, sought.same (file f ⟨q, _, here, sought.file⟩) inode⟩
  · rw [handler]
    exact inv.alone

theorem trapSeek_sought {v w : Vm} {cr2 : Nat} {h : Option (Mmap × Nat)}
    (calm : ¬InWindow v.proc cr2 → ∀ i ∈ mmapin v.proc.ommap cr2, ∀ f ∈ (v.proc.ommap i).pfile,
      (v.fs.file f).readable = true ∧ (v.proc.ommap i).va ≤ PGROUNDDOWN cr2)
    (done : trapSeek v cr2 = .ok (w, h)) :
    (h = none ∧ w.fs = v.fs) ∨ ∃ i f ip, ¬InWindow v.proc cr2 ∧ mmapin v.proc.ommap cr2 = some i ∧
      h = some (v.proc.ommap i, PGROUNDDOWN cr2) ∧
      Sought w.fs (v.proc.ommap i) (PGROUNDDOWN cr2) f ip ∧ w.fs.inode = v.fs.inode ∧
      ∀ g, g ≠ f → w.fs.file g = v.fs.file g := by
  unfold trapSeek at done
  split at done
  · obtain ⟨⟨r, u⟩, -, rest⟩ := bind_ok.mp done
    dsimp only at rest
    split at rest
    · cases rest
    · cases rest
      exact .inl ⟨rfl, rfl⟩
  rename_i window
  split at done
  · rename_i i found
    obtain ⟨⟨r, u⟩, -, rest⟩ := bind_ok.mp done
    dsimp only at rest
    split at rest
    · cases rest
    obtain ⟨x, sought, eq⟩ := bind_ok.mp rest
    have same := congrArg Proc.ommap (seekMapped_proc sought)
    cases eq
    rw [same]
    unfold seekMapped at sought
    split at sought
    · cases sought
    rename_i f file
    obtain ⟨fs, seek, eq⟩ := bind_ok.mp sought
    cases eq
    obtain ⟨readable, start⟩ := calm window i found f file
    obtain ⟨ip, inode, rfl⟩ := fileseek_off seek
    have low : PGROUNDDOWN cr2 < 2 ^ 32 := by
      obtain ⟨-, -, below⟩ := mmapin_some found
      unfold PGROUNDDOWN
      simp only [PGSIZE]
      omega
    have offset : (PGROUNDDOWN cr2 + 2 ^ 32 - (v.proc.ommap i).va) % 2 ^ 32 =
        PGROUNDDOWN cr2 - (v.proc.ommap i).va := by omega
    have kept := SameFiles.setOff v.fs f
    refine .inr ⟨i, f, ip, window, found, rfl, ⟨file, ?_, ?_, ?_⟩, rfl,
      fun g ne => v.fs.setOff_other _ ne⟩
    · exact ((kept _).file.ip f).trans inode
    · exact ((kept _).file.readable f).trans readable
    · change ((v.fs.setOff f _).file f).off = _
      rw [Fs.setOff_off, offset]
      rfl
  · cases done
    exact .inl ⟨rfl, rfl⟩

theorem readMapped_files {v w : Vm} (done : readMapped v m base = .ok w) :
    w.fs.inode = v.fs.inode ∧ ∀ f, m.pfile ≠ some f → w.fs.file f = v.fs.file f := by
  unfold readMapped at done
  split at done
  · cases done
  rename_i g file
  obtain ⟨⟨r, b, fs⟩, read, rest⟩ := bind_ok.mp done
  have files : fs.inode = v.fs.inode ∧ ∀ f, m.pfile ≠ some f → fs.file f = v.fs.file f :=
    ⟨(fileread_same read).inode, fun f other => fileread_other read fun same => other
      (by rw [file, same])⟩
  dsimp only at rest
  split at rest
  · cases rest
    exact files
  · split at rest
    · cases rest
    · cases rest
      exact files

theorem readMapped_received {v w : Vm} {f : Fin NFILE} {ip : Fin NINODE}
    (sizes : (v.fs.inode ip).size ≤ MAXFILE * BSIZE) (sought : Sought v.fs m base f ip)
    (done : readMapped v m base = .ok w) :
    (w.fs.file f).ip = some ip ∧ ∀ j < PGSIZE, base - m.va + j < (w.fs.inode ip).size →
      ∃ e, w.entry (base / PGSIZE) = some e ∧
        w.kmem.mem e.pa j = (w.fs.inode ip).data (base - m.va + j) := by
  unfold readMapped at done
  rw [sought.file] at done
  obtain ⟨⟨r, b, fs⟩, read, rest⟩ := bind_ok.mp done
  have off := sought.off
  simp only [MAXFILE, NDIRECT, NINDIRECT, BSIZE] at sizes
  obtain ⟨count, bytes⟩ := fileread_bytes sought.readable sought.inode
    (by rw [off]; exact Nat.min_le_right _ _) (by simp only [PGSIZE]; omega) read
  have same := fileread_same read
  have inode : (fs.file f).ip = some ip := (same.file.ip f).trans sought.inode
  have start : ∀ {j}, base - m.va + j < (v.fs.inode ip).size → (v.fs.file f).off = base - m.va := by
    intro j below
    rw [off, Nat.min_eq_left (by omega)]
  dsimp only at rest
  split at rest
  · cases rest
    refine ⟨inode, fun j page below => ?_⟩
    rw [same.inode] at below
    have := start below
    omega
  split at rest
  · cases rest
  rename_i e there
  cases rest
  refine ⟨inode, fun j page below => ?_⟩
  change base - m.va + j < (fs.inode ip).size at below
  rw [same.inode] at below
  have here := start below
  have got : j < r.toNat := by
    simp only [PGSIZE] at count page
    omega
  refine ⟨{ e with dirty := true }, ?_, ?_⟩
  · rw [Vm.fill_entry there, update_self]
  · rw [Vm.fill_mem]
    dsimp only
    rw [update_self, if_pos got, bytes, here]
    exact congrFun (congrArg Inode.data (congrFun same.inode.symm ip)) _

theorem SharingInv.step [DecidableEq P] {a : ShareAct P} (inv : SharingInv s) (calm : a.Calm s)
    (done : s.step a = .ok t) : SharingInv t := by
  cases a with
  | fault p cr2 =>
    unfold Sharing.step at done
    dsimp only at done
    split at done
    · cases done
      exact inv
    rename_i idle
    have idle : s.handler p = none := by simpa using idle
    obtain ⟨⟨v, h⟩, sought, eq⟩ := bind_ok.mp done
    cases eq
    rcases trapSeek_sought (fun window i found f file => (calm window i found f file).2) sought with
      ⟨rfl, same⟩ | ⟨i, f, ip, window, found, rfl, here, inode, others⟩
    · refine inv.untouched ?_ (congrArg Fs.inode same) fun f _ => congrFun (congrArg Fs.file same) f
      rw [← idle]
      exact update_eq_self p s.handler
    have free : ¬s.Busy f := (calm window i found f here.file).1
    have other : ∀ q m base, q ≠ p →
        (s.install p v (some ((s.proc p).ommap i, PGROUNDDOWN cr2))).handler q =
        some (m, base) → s.handler q = some (m, base) ∧ m.pfile ≠ some f := by
      intro q m base ne at_
      change update s.handler p _ q = _ at at_
      rw [update_of_ne ne] at at_
      exact ⟨at_, fun file => free ⟨q, _, at_, file⟩⟩
    have own : ∀ m base, (s.install p v (some ((s.proc p).ommap i, PGROUNDDOWN cr2))).handler p =
        some (m, base) → m = (s.proc p).ommap i ∧ base = PGROUNDDOWN cr2 := by
      intro m base at_
      change update s.handler p _ p = _ at at_
      rw [update_self] at at_
      cases at_
      exact ⟨rfl, rfl⟩
    refine ⟨fun ip => ?_, fun q m base at_ => ?_,
      fun q q' m m' base base' g at_ at_' file file' => ?_⟩
    · change (v.fs.inode ip).size ≤ _
      rw [inode]
      exact inv.sizes ip
    · by_cases ne : q = p
      · subst ne
        obtain ⟨rfl, rfl⟩ := own m base at_
        exact ⟨f, ip, here⟩
      · obtain ⟨before, apart⟩ := other q m base ne at_
        obtain ⟨g, jp, sought⟩ := inv.sought q m base before
        exact ⟨g, jp, sought.same (others g fun same => apart (by rw [sought.file, same])) inode⟩
    · by_cases ne : q = p
      · by_cases ne' : q' = p
        · rw [ne, ne']
        · subst ne
          obtain ⟨rfl, rfl⟩ := own m base at_
          cases here.file.symm.trans file
          exact absurd file' (other q' m' base' ne' at_').2
      · by_cases ne' : q' = p
        · subst ne'
          obtain ⟨rfl, rfl⟩ := own m' base' at_'
          cases here.file.symm.trans file'
          exact absurd file (other q m base ne at_).2
        · exact inv.alone q q' m m' base base' g (other q m base ne at_).1
            (other q' m' base' ne' at_').1
            file file'
  | fill p =>
    obtain ⟨v, read, eq⟩ := bind_ok.mp done
    cases eq
    cases at_ : s.handler p with
    | none =>
      rw [at_] at read
      cases read
      refine inv.untouched ?_ rfl fun _ _ => rfl
      rw [← at_]
      exact update_eq_self p s.handler
    | some h =>
      obtain ⟨m, base⟩ := h
      rw [at_] at read
      obtain ⟨inode, others⟩ := readMapped_files read
      have other : ∀ q m' base', (s.install p v none).handler q = some (m', base') →
          q ≠ p ∧ s.handler q = some (m', base') := by
        intro q m' base' here
        change update s.handler p none q = _ at here
        by_cases ne : q = p
        · rw [ne, update_self] at here
          cases here
        · rw [update_of_ne ne] at here
          exact ⟨ne, here⟩
      refine ⟨fun ip => ?_, fun q m' base' here => ?_, fun q q' m₁ m₂ b₁ b₂ g h₁ h₂ => ?_⟩
      · change (v.fs.inode ip).size ≤ _
        rw [inode]
        exact inv.sizes ip
      · obtain ⟨ne, before⟩ := other q m' base' here
        obtain ⟨g, jp, sought⟩ := inv.sought q m' base' before
        refine ⟨g, jp, sought.same (others g fun same => ne ?_) inode⟩
        exact inv.alone q p m' m base' base g before at_ sought.file same
      · exact inv.alone q q' m₁ m₂ b₁ b₂ g (other q m₁ b₁ h₁).2 (other q' m₂ b₂ h₂).2
  | fileread p f n =>
    unfold Sharing.step at done
    dsimp only at done
    split at done
    · cases done
      exact inv
    obtain ⟨⟨r, b, fs⟩, read, eq⟩ := bind_ok.mp done
    cases eq
    refine inv.untouched rfl (fileread_same read).inode fun g busy => fileread_other read ?_
    rintro rfl
    exact calm busy
  | fileseek p f n =>
    unfold Sharing.step at done
    dsimp only at done
    split at done
    · cases done
      exact inv
    obtain ⟨fs, sought, eq⟩ := bind_ok.mp done
    cases eq
    refine inv.untouched rfl (fileseek_same sought).inode fun g busy => fileseek_other sought ?_
    rintro rfl
    exact calm busy

end Invariant

/-- No process is in a handler, and no file is larger than a file can be. -/
def SharingStart {P : Type} (s : Sharing P) : Prop :=
  (∀ p, s.handler p = none) ∧ ∀ ip, (s.fs.inode ip).size ≤ MAXFILE * BSIZE

instance [Fintype P] (s : Sharing P) : (a : ShareAct P) → Decidable (a.Calm s)
  | .fault p cr2 => inferInstanceAs (Decidable (¬(_ ∧ _) → ∀ i ∈ mmapin (s.proc p).ommap cr2, _))
  | .fill _ => inferInstanceAs (Decidable True)
  | .fileread _ _ _ | .fileseek _ _ _ => inferInstanceAs (Decidable (¬s.Busy _))

/-- The process of image and its child, which both map a file of two pages at 0xA000. The
first page of the file is filled with 65 and the second with 66. -/
def parentAndChild : Sharing Bool where
  proc child := { image.proc with
    sz := 0xC000
    ommap := update image.proc.ommap 0 ⟨some 0, 0xA000, 8192⟩
    pgdir := if child then { imagePgdir with
        page := 0xA00
        tab := fun i => (imagePgdir.tab i).map (· + 0x600)
        pte := fun v => if v = 0 ∨ v = 9 then some (userPte (0x380 + v)) else imagePgdir.pte v }
      else imagePgdir }
  kmem := image.kmem
  fs := { image.fs with inode := fun _ => { size := 8192, data :=
    fun j => if j < 4096 then 65 else 66 } }

theorem parentAndChild_start : SharingStart parentAndChild := by
  refine ⟨fun _ => rfl, fun ip => ?_⟩
  change 8192 ≤ MAXFILE * BSIZE
  decide

def twoPages : Mmap := ⟨some 0, 0xA000, 8192⟩

/-- Whether the parent's handler is about to read its first page, and then finds the
byte b there where the file has 65. -/
def Sharing.fills (s : Sharing Bool) (b : UInt8) : Bool :=
  decide (s.handler false = some (twoPages, 0xA000)) &&
    (s.step (.fill false)).toOption.any fun t =>
      decide ((t.fs.file 0).ip = some 0) && decide (0 < (t.fs.inode 0).size) &&
        ((t.fs.inode 0).data 0 == 65) &&
        ((t.proc false).pgdir.entry 10).any fun e => t.kmem.mem e.pa 0 == b

theorem Sharing.fills_step {s : Sharing Bool} {b : UInt8} (h : s.fills b = true) :
    s.handler false = some (twoPages, 0xA000) ∧ ∃ t e, s.step (.fill false) = .ok t ∧
      (t.fs.file 0).ip = some 0 ∧ 0 < (t.fs.inode 0).size ∧ (t.fs.inode 0).data 0 = 65 ∧
      (t.proc false).pgdir.entry 10 = some e ∧ t.kmem.mem e.pa 0 = b := by
  unfold Sharing.fills at h
  cases done : s.step (.fill false) with
  | error e => simp [done, Except.toOption] at h
  | ok t =>
    cases there : (t.proc false).pgdir.entry 10 with
    | none => simp [done, there, Except.toOption] at h
    | some e =>
      simp only [done, there, Except.toOption, Option.any_some, Bool.and_eq_true, decide_eq_true_eq,
        beq_iff_eq] at h
      obtain ⟨at_, ⟨⟨inode, size⟩, byte⟩, got⟩ := h
      exact ⟨at_, t, e, rfl, inode, size, byte, there, got⟩

end MmapXv6
