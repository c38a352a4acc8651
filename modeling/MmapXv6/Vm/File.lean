import MmapXv6.Types
import MmapXv6.Lib.Run
import MmapXv6.Lib.Word

/-! The file layer under the mappings: readi and writei of fs.c on an inode whose
content is one sequence of bytes, and fileseek, fileread and filewrite of file.c.
Blocks, the log and the inode locks are below this level, and a disk that runs out
of blocks stops the source with a panic. -/
namespace MmapXv6

open Function

/-- T_DIR, T_FILE and T_DEV -/
inductive InodeType where
  | dir | file | dev
  deriving DecidableEq, Repr

structure Inode where
  type : InodeType := .file
  size : Nat := 0
  data : Lib.Bytes := fun _ => 0

/-- FD_NONE, FD_PIPE and FD_INODE -/
inductive FileType where
  | none | pipe | inode
  deriving DecidableEq, Repr

/-- The struct file of file.h. The field ip may be set while type is FD_NONE, since
fileclose leaves it as it was. -/
structure File where
  type : FileType := .none
  readable : Bool := false
  writable : Bool := false
  ip : Option (Fin NINODE) := none
  off : Nat := 0
  deriving DecidableEq, Repr

structure Fs where
  file : Fin NFILE → File := fun _ => {}
  inode : Fin NINODE → Inode := fun _ => {}
  iref : Fin NINODE → Nat := fun _ => 0   -- the field ref of struct inode

def Fs.setOff (fs : Fs) (f : Fin NFILE) (off : Nat) : Fs :=
  { fs with file := update fs.file f { fs.file f with off := off } }

def Fs.setInode (fs : Fs) (i : Fin NINODE) (ip : Inode) : Fs :=
  { fs with inode := update fs.inode i ip }

def Fs.iget (fs : Fs) (i : Fin NINODE) : Fs :=
  { fs with iref := update fs.iref i (fs.iref i + 1) }

/-- The iput of an inode that a directory still names, so that it stays. -/
def Fs.iput (fs : Fs) (i : Fin NINODE) : Fs :=
  { fs with iref := update fs.iref i (fs.iref i - 1) }

def readi (ip : Inode) (off n : Nat) : Except Panic (Int × Lib.Bytes) :=
  if ip.type = .dev then .error .deviceFile
  else if ip.size < off ∨ (off + n) % 2 ^ 32 < off then .ok (-1, ip.data)
  else
    let n := if ip.size < off + n then ip.size - off else n
    .ok (n, fun j => ip.data (off + j))

def writei (ip : Inode) (src : Lib.Bytes) (off n : Nat) : Except Panic (Int × Inode) :=
  if ip.type = .dev then .error .deviceFile
  else if ip.size < off ∨ (off + n) % 2 ^ 32 < off then .ok (-1, ip)
  else if MAXFILE * BSIZE < off + n then .ok (-1, ip)
  else .ok (n, { ip with
    data := fun j => if off ≤ j ∧ j < off + n then src (j - off) else ip.data j
    size := if ip.size < off + n then off + n else ip.size })

def fileread (fs : Fs) (f : Fin NFILE) (n : Nat) : Except Panic (Int × Lib.Bytes × Fs) :=
  let file := fs.file f
  if ¬file.readable then .ok (-1, fun _ => 0, fs)
  else match file.type, file.ip with
    | .pipe, _ => .error .pipeFile
    | .none, _ => .error .fileread
    | .inode, none => .error .nullInode
    | .inode, some i => do
      let (r, bytes) ← readi (fs.inode i) file.off n
      .ok (r, bytes, if 0 < r then fs.setOff f (file.off + r.toNat) else fs)

/-- The largest piece that one transaction of filewrite writes. -/
def filewriteMax : Nat := ((LOGSIZE - 1 - 1 - 2) / 2) * 512

def filewriteLoop (f : Fin NFILE) (i : Fin NINODE) (src : Lib.Bytes) (n : Nat) :
    Nat → Fs → Nat → Except Panic (Nat × Fs)
  | 0, _, _ => .error .loops
  | fuel + 1, fs, done =>
    if done < n then do
      let n1 := if filewriteMax < n - done then filewriteMax else n - done
      let (r, ip) ← writei (fs.inode i) (fun j => src (done + j)) (fs.file f).off n1
      if r < 0 then .ok (done, fs)
      else if r ≠ n1 then .error .shortFilewrite
      else
        let fs := (fs.setInode i ip).setOff f ((fs.file f).off + n1)
        filewriteLoop f i src n fuel fs (done + n1)
    else .ok (done, fs)

def filewrite (fs : Fs) (f : Fin NFILE) (src : Lib.Bytes) (n : Nat) :
    Except Panic (Int × Fs) :=
  let file := fs.file f
  if ¬file.writable then .ok (-1, fs)
  else match file.type, file.ip with
    | .pipe, _ => .error .pipeFile
    | .none, _ => .error .filewrite
    | .inode, none => .error .nullInode
    | .inode, some i => do
      let (done, fs) ← filewriteLoop f i src n (n + 1) fs 0
      .ok (if done = n then (n : Int) else -1, fs)

/-- A position after the end of the file becomes its end. -/
def fileseek (fs : Fs) (f : Fin NFILE) (newoffset : Nat) : Except Panic Fs :=
  match (fs.file f).ip with
  | none => .error .nullInode
  | some i =>
    if (fs.inode i).size < newoffset then .ok (fs.setOff f (fs.inode i).size)
    else .ok (fs.setOff f newoffset)

end MmapXv6
