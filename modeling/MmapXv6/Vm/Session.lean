import MmapXv6.Vm.Fault

/-! A process that maps files, loads and stores in the mapped ranges, unmaps them and
exits. Next to the machine stands a record of what the process stored: for each file
the last byte stored at each offset since the file was last mapped. The result of mmap
is stored through its pointer argument like any other byte. -/
namespace MmapXv6

def Vm.inodeOf (s : Vm) (k : Fin MAXMAPPEDFILES) : Option (Fin NINODE) :=
  (s.proc.ommap k).pfile.bind fun f => (s.fs.file f).ip

abbrev Written := Fin NINODE → Nat → Option UInt8

structure Session where
  vm : Vm := {}
  written : Written := fun _ _ => none
  exited : Bool := false

def Vm.offsetIn (s : Vm) (k : Fin MAXMAPPEDFILES) (a i : Nat) : Prop :=
  i < (s.proc.ommap k).sz ∧ (s.proc.ommap k).va + i = a

instance (s : Vm) (k : Fin MAXMAPPEDFILES) (a i : Nat) : Decidable (s.offsetIn k a i) :=
  inferInstanceAs (Decidable (_ ∧ _))

def record (s : Vm) (w : Written) (a : Nat) (b : UInt8) : Written := fun ip i =>
  if ∃ k, s.inodeOf k = some ip ∧ s.offsetIn k a i then some b else w ip i

def forget (w : Written) (mapped : Option (Fin NINODE)) : Written := fun ip i =>
  if mapped = some ip then none else w ip i

inductive SessionAct where
  | mmap (fd : Int) (addr : Nat)
  | load (a : Nat)
  | store (a : Nat) (b : UInt8)
  | munmap (addr : Nat)
  | exit

def sessionStep (s : Session) : SessionAct → Except Panic Session
  | .mmap fd addr => do
    let (r, vm) ← mmap s.vm fd addr
    if r = 0 then
      .ok { s with
        vm := vm
        written := (wordBytes addr s.vm.proc.sz).foldl (fun w p => record vm w p.1 p.2)
          (forget s.written (mapInode s.vm fd)) }
    else .ok { s with vm := vm }
  | .load a => do
    let (_, vm) ← s.vm.load a
    .ok { s with vm := vm }
  | .store a b => do
    let (ok, vm) ← s.vm.store a b true
    .ok { s with vm := vm, written := if ok then record vm s.written a b else s.written }
  | .munmap addr => do
    let (_, vm) ← munmap s.vm addr
    .ok { s with vm := vm }
  | .exit => do
    let vm ← exitUnmap s.vm
    .ok { s with vm := vm, exited := true }

def OpenRdwr (fs : Fs) (f : Fin NFILE) : Prop :=
  (fs.file f).type = .inode ∧ (fs.file f).readable = true ∧ (fs.file f).writable = true ∧
    ∃ ip ∈ (fs.file f).ip, (fs.inode ip).type = .file

instance (fs : Fs) (f : Fin NFILE) : Decidable (OpenRdwr fs f) :=
  inferInstanceAs (Decidable (_ ∧ _ ∧ _ ∧ ∃ ip ∈ (fs.file f).ip, _))

/-- The runs: mmap of regular files opened read/write, none mapped twice at a time,
loads and stores inside mapped ranges, munmap of any address, and exit at the end. -/
def SessionAct.Legal (s : Session) : SessionAct → Prop
  | .mmap fd addr => s.exited = false ∧ addr + 4 ≤ 2 ^ 32 ∧
      (∀ f ∈ openFile s.vm.proc fd, OpenRdwr s.vm.fs f) ∧
      ∀ ip ∈ mapInode s.vm fd, ∀ k, s.vm.inodeOf k ≠ some ip
  | .load a => s.exited = false ∧ ∃ k, InMapping s.vm.proc k a
  | .store a _ => s.exited = false ∧ ∃ k, InMapping s.vm.proc k a
  | .munmap addr => s.exited = false ∧ addr < 2 ^ 32
  | .exit => s.exited = false

def FreesUser (s : Vm) (i : Fin MAXMAPPEDFILES) : Prop :=
  2 * (s.proc.ommap i).va + (s.proc.ommap i).sz ≤ KERNBASE

/-- No page of the mapping j that is in memory lies where munmap of i frees, which is
from va up to va + (va + sz). -/
def Spares (s : Vm) (i j : Fin MAXMAPPEDFILES) : Prop :=
  ∀ n < ((s.proc.ommap j).sz + (PGSIZE - 1)) / PGSIZE,
    (s.proc.ommap i).va ≤ (s.proc.ommap j).va + n * PGSIZE →
    (s.proc.ommap j).va + n * PGSIZE < 2 * (s.proc.ommap i).va + (s.proc.ommap i).sz →
    s.entry (((s.proc.ommap j).va + n * PGSIZE) / PGSIZE) = none

instance (s : Vm) (i : Fin MAXMAPPEDFILES) : Decidable (FreesUser s i) :=
  inferInstanceAs (Decidable (_ ≤ _))

instance (s : Vm) (i j : Fin MAXMAPPEDFILES) : Decidable (Spares s i j) :=
  inferInstanceAs (Decidable (∀ n < _, _ → _ → _))

/-- The steps under which no store is lost. A file is mapped at a page boundary below
KERNBASE and its last page fits under the largest file size. A mapping is removed when
no page in memory of another one lies in the range that munmap frees; exit removes the
mappings in the order of the table. -/
def SessionAct.Calm (s : Session) : SessionAct → Prop
  | .mmap fd addr => s.vm.proc.sz ≠ 0 ∧ s.vm.proc.sz % PGSIZE = 0 ∧ addr + 4 ≤ KERNBASE ∧
      ∀ ip ∈ mapInode s.vm fd, s.vm.proc.sz + (s.vm.fs.inode ip).size ≤ KERNBASE ∧
        (s.vm.fs.inode ip).size ≤ MAXFILE * BSIZE / PGSIZE * PGSIZE
  | .munmap addr => ∀ i, Live s.vm.proc i → (s.vm.proc.ommap i).va = addr →
      FreesUser s.vm i ∧ ∀ j, j ≠ i → Live s.vm.proc j → Spares s.vm i j
  | .exit => ∀ i, Live s.vm.proc i → FreesUser s.vm i ∧
      ∀ j, i < j → Live s.vm.proc j → Spares s.vm i j
  | _ => True

instance (p : Proc) (k : Fin MAXMAPPEDFILES) (a : Nat) : Decidable (InMapping p k a) :=
  inferInstanceAs (Decidable (_ ∧ _ ∧ _))

instance SessionAct.decidableLegal (s : Session) (a : SessionAct) : Decidable (a.Legal s) := by
  cases a <;> dsimp only [SessionAct.Legal] <;> infer_instance

instance SessionAct.decidableCalm (s : Session) (a : SessionAct) : Decidable (a.Calm s) := by
  cases a <;> dsimp only [SessionAct.Calm] <;> infer_instance

def SessionStart (s : Session) : Prop :=
  s.vm.uvm.Apart ∧ (∀ k, ¬Live s.vm.proc k) ∧ (∀ ip i, s.written ip i = none) ∧ s.exited = false

def NoWriteLost (s : Session) : Prop :=
  ∀ ip i b, s.written ip i = some b → (s.exited = true ∨ ∀ k, s.vm.inodeOf k ≠ some ip) →
    i < (s.vm.fs.inode ip).size ∧ (s.vm.fs.inode ip).data i = b

end MmapXv6
