import MmapXv6.Vm.Space

/-! The call seek of sysfile.c. fileseek gets the int as an unsigned number, so that its
check for a negative offset never fires, and it has no check of the kind of the file. -/
namespace MmapXv6

def sysSeek (s : Vm) (fd : Int) (n : BitVec 32) : Except Panic (Int × Vm) :=
  match openFile s.proc fd with
  | none => .ok (-1, s)
  | some f => do
    let fs ← fileseek s.fs f n.toNat
    .ok (0, { s with fs := fs })

def Vm.setIp (s : Vm) (f : Fin NFILE) (ip : Option (Fin NINODE)) : Vm :=
  { s with fs := { s.fs with file := Function.update s.fs.file f { s.fs.file f with ip := ip } } }

/-- A seek that checks its arguments: it refuses a negative offset and a file that is no
inode, moves the offset of an inode, and does not follow the field ip of a pipe. -/
structure SeekChecked (s : Vm) (fd : Int) (f : Fin NFILE) (n : BitVec 32) : Prop where
  refused : n.toInt < 0 ∨ (s.fs.file f).type ≠ .inode → sysSeek s fd n = .ok (-1, s)
  moved : 0 ≤ n.toInt → (s.fs.file f).type = .inode → ∃ i, (s.fs.file f).ip = some i ∧
    sysSeek s fd n = .ok (0, { s with fs := s.fs.setOff f (min n.toInt.toNat (s.fs.inode i).size) })
  apart : (s.fs.file f).type = .pipe → ∀ ip, sysSeek (s.setIp f ip) fd n ≠ .error .nullInode

variable {s : Vm} {fd : Int} {f : Fin NFILE} {n : BitVec 32}

theorem sysSeek_ip {i : Fin NINODE} (opened : openFile s.proc fd = some f)
    (inode : (s.fs.file f).ip = some i) :
    sysSeek s fd n = .ok (0, { s with fs := s.fs.setOff f (min n.toNat (s.fs.inode i).size) }) := by
  by_cases past : (s.fs.inode i).size < n.toNat
  · simp [sysSeek, opened, fileseek, inode, past, Nat.min_eq_right (Nat.le_of_lt past)]
  · simp [sysSeek, opened, fileseek, inode, past, Nat.min_eq_left (Nat.le_of_not_lt past)]

theorem sysSeek_not_refused (opened : openFile s.proc fd = some f) :
    sysSeek s fd n ≠ .ok (-1, s) := by
  cases inode : (s.fs.file f).ip with
  | none => simp [sysSeek, opened, fileseek, inode, bind, Except.bind]
  | some i => simp [sysSeek_ip opened inode]

/-- seek does what a checked seek does exactly on an inode with an offset that is not
negative. sys_open sets the type and the inode of a struct file together. -/
theorem seek_checked_iff (opened : openFile s.proc fd = some f)
    (valid : (s.fs.file f).type = .inode → (s.fs.file f).ip.isSome) :
    SeekChecked s fd f n ↔ (s.fs.file f).type = .inode ∧ 0 ≤ n.toInt := by
  constructor
  · intro checked
    by_contra bad
    rw [not_and_or, not_le] at bad
    exact sysSeek_not_refused opened (checked.refused bad.symm)
  · rintro ⟨type, nonneg⟩
    obtain ⟨i, inode⟩ := Option.isSome_iff_exists.mp (valid type)
    have same : n.toInt.toNat = n.toNat := by
      have := BitVec.toInt_eq_toNat_cond n
      split at this <;> omega
    constructor
    · rintro (negative | other)
      · omega
      · exact absurd type other
    · intro _ _
      exact ⟨i, inode, by rw [same, sysSeek_ip opened inode]⟩
    · intro pipe
      simp [type] at pipe

/-- A process whose descriptor 0 is the struct file 0, of the given kind and inode. -/
def seeker (type : FileType) (ip : Option (Fin NINODE)) : Vm where
  proc := { ofile := fun fd => if fd = 0 then some 0 else none }
  kmem := {}
  fs := { file := fun _ => { type := type, ip := ip }, inode := fun _ => { size := 10 } }

/-- An offset inside the file. -/
theorem seek_checked_inode : SeekChecked (seeker .inode (some 0)) 0 0 20 :=
  (seek_checked_iff rfl (fun _ => rfl)).mpr ⟨rfl, by decide⟩

/-- A negative offset moves to the end of the file, and a pipe is moved through the inode that
its struct file had before, or through no inode at all. -/
theorem seek_not_checked : ¬ SeekChecked (seeker .inode (some 0)) 0 0 (-1) ∧
    ¬ SeekChecked (seeker .pipe (some 0)) 0 0 5 ∧
      sysSeek (seeker .pipe none) 0 5 = .error .nullInode := by
  refine ⟨fun checked => ?_, fun checked => ?_, rfl⟩
  · exact sysSeek_not_refused rfl (checked.refused (.inl (by decide)))
  · exact sysSeek_not_refused rfl (checked.refused (.inr (by decide)))

end MmapXv6
