import MmapXv6.Vm.Space

/-! The file table of file.c with its reference counts, and the system calls of every
process that hold, copy or drop a pointer into it: open, dup and close of sysfile.c,
mmap and munmap, fork and exit. A call is one step. The inode of an open call is the
one that its path names, and pipes are left out. -/
namespace MmapXv6

open Function

/-- The processes with what they share. The field origin is of the proofs alone: the
inode that a mapping was made for. -/
structure Files where
  proc : Slot → Proc := fun _ => {}
  kmem : Kmem := {}
  fs : Fs := {}
  ref : Fin NFILE → Nat := fun _ => 0
  origin : Slot → Fin MAXMAPPEDFILES → Option (Fin NINODE) := fun _ _ => none

namespace Files

def view (s : Files) (p : Slot) : Vm := ⟨s.proc p, s.kmem, s.fs⟩

def install (s : Files) (p : Slot) (v : Vm) : Files :=
  { s with proc := update s.proc p v.proc, kmem := v.kmem, fs := v.fs }

def setRef (s : Files) (f : Fin NFILE) (n : Nat) : Files :=
  { s with ref := update s.ref f n }

def setFile (s : Files) (f : Fin NFILE) (file : File) : Files :=
  { s with fs := { s.fs with file := update s.fs.file f file } }

def setProc (s : Files) (p : Slot) (proc : Proc) : Files :=
  { s with proc := update s.proc p proc }

def setOfile (s : Files) (p : Slot) (fd : Fin NOFILE) (f : Option (Fin NFILE)) : Files :=
  s.setProc p { s.proc p with ofile := update (s.proc p).ofile fd f }

def setState (s : Files) (p : Slot) (state : ProcState) : Files :=
  s.setProc p { s.proc p with state := state }

def filealloc (s : Files) : Option (Fin NFILE) :=
  (List.finRange NFILE).find? fun f => decide (s.ref f = 0)

def filedup (s : Files) (f : Fin NFILE) : Except Panic Files :=
  if s.ref f < 1 then .error .filedup else .ok (s.setRef f (s.ref f + 1))

/-- The last close sets the type and leaves the other fields. The iput of the inode
that follows is below this level. -/
def fileclose (s : Files) (f : Fin NFILE) : Except Panic Files :=
  if s.ref f < 1 then .error .fileclose
  else if 0 < s.ref f - 1 then .ok (s.setRef f (s.ref f - 1))
  else .ok ((s.setRef f 0).setFile f { s.fs.file f with type := .none })

def fdalloc (p : Proc) : Option (Fin NOFILE) :=
  (List.finRange NOFILE).find? fun fd => (p.ofile fd).isNone

def sysOpen (s : Files) (p : Slot) (ip : Fin NINODE) (readable writable : Bool) :
    Except Panic Files :=
  match s.filealloc with
  | none => .ok s
  | some f =>
    let s := s.setRef f 1
    match fdalloc (s.proc p) with
    | none => s.fileclose f
    | some fd => .ok ((s.setOfile p fd (some f)).setFile f ⟨.inode, readable, writable, some ip, 0⟩)

def sysDup (s : Files) (p : Slot) (fd : Int) : Except Panic Files :=
  match openFile (s.proc p) fd with
  | none => .ok s
  | some f =>
    match fdalloc (s.proc p) with
    | none => .ok s
    | some fd => (s.setOfile p fd (some f)).filedup f

def closeFd (p : Slot) (s : Files) (fd : Fin NOFILE) : Except Panic Files :=
  match (s.proc p).ofile fd with
  | none => .ok s
  | some f => (s.setOfile p fd none).fileclose f

def sysClose (s : Files) (p : Slot) (fd : Int) : Except Panic Files :=
  if h : fd.toNat < NOFILE ∧ 0 ≤ fd then closeFd p s ⟨fd.toNat, h.1⟩ else .ok s

/-- The ghost field after a call of mmap, which takes the first free slot. -/
def mapped (s : Files) (p : Slot) (fd : Int) : Fin MAXMAPPEDFILES → Option (Fin NINODE) :=
  match freeMmap (s.proc p).ommap with
  | none => s.origin p
  | some i => update (s.origin p) i (mapInode (s.view p) fd)

def sysMmap (s : Files) (p : Slot) (fd : Int) (addr : Nat) : Except Panic Files := do
  let (_, v) ← mmap (s.view p) fd addr
  .ok { s.install p v with origin := update s.origin p (s.mapped p fd) }

def dupFd (p : Slot) (s : Files) (fd : Fin NOFILE) : Except Panic Files :=
  match (s.proc p).ofile fd with
  | none => .ok s
  | some f => s.filedup f

def addChild (s : Files) (p c : Slot) (np : Proc) : Files :=
  { s with
    proc := update s.proc c { np with state := .runnable, parent := some p }
    origin := update s.origin c (s.origin p) }

def sysFork (s : Files) (p c : Slot) : Except Panic Files := do
  let (child, v) ← fork (s.view p) (s.proc c)
  match child with
  | none => .ok (s.install p v)
  | some np => (List.finRange NOFILE).foldlM (dupFd p) ((s.install p v).addChild p c np)

def exit (s : Files) (p : Slot) : Except Panic Files := do
  let v ← exitUnmap (s.view p)
  let s ← (List.finRange NOFILE).foldlM (closeFd p) (s.install p v)
  .ok (s.setState p .zombie)

end Files

inductive FileAct where
  | sysOpen (p : Slot) (ip : Fin NINODE) (readable writable : Bool)
  | sysDup (p : Slot) (fd : Int)
  | sysClose (p : Slot) (fd : Int)
  | sysMmap (p : Slot) (fd : Int) (addr : Nat)
  | sysMunmap (p : Slot) (addr : Nat)
  | load (p : Slot) (a : Nat)
  | store (p : Slot) (a : Nat) (b : UInt8)
  | sysFork (p c : Slot)
  | exit (p : Slot)
  | reap (p : Slot)             -- the parent's wait finds a zombie
  | grow (p : Slot) (n : Int)
  | outside (inode : Fin NINODE → Inode) (off : Fin NFILE → Nat)  -- read, write and the rest

def fileStep (s : Files) : FileAct → Except Panic Files
  | .sysOpen p ip r w => s.sysOpen p ip r w
  | .sysDup p fd => s.sysDup p fd
  | .sysClose p fd => s.sysClose p fd
  | .sysMmap p fd addr => s.sysMmap p fd addr
  | .sysMunmap p addr => do .ok (s.install p (← munmap (s.view p) addr).2)
  | .load p a => do .ok (s.install p (← (s.view p).load a).2)
  | .store p a b => do .ok (s.install p (← (s.view p).store a b true).2)
  | .sysFork p c => s.sysFork p c
  | .exit p => s.exit p
  | .reap p => .ok (s.setState p .unused)
  | .grow p n => do .ok (s.install p (← growproc (s.view p) n).2)
  | .outside inode off =>
    .ok { s with fs := { s.fs with file := fun f => { s.fs.file f with off := off f }, inode :=
      inode } }

def Proc.acts (p : Proc) : Prop := p.state ≠ .unused ∧ p.state ≠ .embryo ∧ p.state ≠ .zombie

instance (p : Proc) : Decidable p.acts := by unfold Proc.acts; infer_instance

def FileAct.Legal (s : Files) : FileAct → Prop
  | .sysOpen p .. | .sysDup p _ | .sysClose p _ | .sysMmap p .. | .sysMunmap p _ | .load p _
  | .store p .. | .exit p | .grow p _ => (s.proc p).acts
  | .sysFork p c => (s.proc p).acts ∧ (s.proc c).state = .unused
  | .reap p => (s.proc p).state = .zombie
  | .outside .. => True

end MmapXv6
