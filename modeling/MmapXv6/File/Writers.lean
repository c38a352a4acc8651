import MmapXv6.Vm.File
import MmapXv6.Lib.Pieces
import MmapXv6.Lib.Fibre

/-! Processes that write through one struct file. A filewrite goes through its pieces, each
in a transaction and under the lock of the inode. From ilock to iunlock no other writer
gets at the file, so that stretch is one step, and so is a commit; begin_op and end_op are
steps of their own. The model has the blocks of the file and the header of the log. -/
namespace MmapXv6

open Lib (Reaches)
open Function

/-- The blocks that balloc finds free, in its order, ip->addrs with the entries of the
indirect block, the sectors of the bitmap and of the inode, and the header of the log. -/
structure FileLog where
  free : List Nat
  addrs : Nat → Option Nat := fun _ => none
  indirect : Option Nat := none
  bitmap : Nat
  inode : Nat
  lh : List Nat := []
  outstanding : Nat := 0

namespace FileLog

/-- The field log.size is the LOGSIZE that mkfs puts into the superblock. -/
def logWrite (d : FileLog) (x : Nat) : Except Panic FileLog :=
  if LOGSIZE ≤ d.lh.length ∨ LOGSIZE - 1 ≤ d.lh.length then .error .tooBigTransaction
  else if d.outstanding < 1 then .error .outsideTransaction
  else .ok { d with lh := if x ∈ d.lh then d.lh else d.lh ++ [x] }

def balloc (d : FileLog) : Except Panic (Nat × FileLog) :=
  match d.free with
  | [] => .error .ballocOutOfBlocks
  | b :: free => do
    let d ← { d with free := free }.logWrite d.bitmap
    -- bzero
    let d ← d.logWrite b
    .ok (b, d)

/-- The indirect block, which bmap allocates with the first of its entries. -/
def indirectBlock (d : FileLog) : Except Panic (Nat × FileLog) :=
  match d.indirect with
  | some i => .ok (i, d)
  | none => do
    let (i, d) ← d.balloc
    .ok (i, { d with indirect := some i })

def bmap (d : FileLog) (bn : Nat) : Except Panic (Nat × FileLog) :=
  if bn < NDIRECT then
    match d.addrs bn with
    | some a => .ok (a, d)
    | none => do
      let (a, d) ← d.balloc
      .ok (a, { d with addrs := update d.addrs bn (some a) })
  else if bn < NDIRECT + NINDIRECT then do
    let (i, d) ← d.indirectBlock
    match d.addrs bn with
    | some a => .ok (a, d)
    | none => do
      let (a, d) ← d.balloc
      let d ← { d with addrs := update d.addrs bn (some a) }.logWrite i
      .ok (a, d)
  else .error .bmapOutOfRange

/-- The loop of writei, without the data. -/
def writeiLoop (n : Nat) : Nat → FileLog → Nat → Nat → Except Panic FileLog
  | 0, _, _, _ => .error .loops
  | fuel + 1, d, off, tot =>
    if tot < n then do
      let (a, d) ← d.bmap (off / BSIZE)
      let m := min (n - tot) (BSIZE - off % BSIZE)
      let d ← d.logWrite a
      writeiLoop n fuel d (off + m) (tot + m)
    else .ok d

/-- The sectors that writei logs for n bytes at off. -/
def writei (d : FileLog) (size off n : Nat) : Except Panic FileLog := do
  let d ← writeiLoop n (n + 1) d off 0
  -- iupdate
  if 0 < n ∧ size < off + n then d.logWrite d.inode else .ok d

/-- The blocks that a file of size bytes needs and does not have. -/
def missing (d : FileLog) (size : Nat) : Nat :=
  ((Finset.range ((size + BSIZE - 1) / BSIZE)).filter fun bn => d.addrs bn = none).card +
    if d.indirect = none ∧ NDIRECT * BSIZE < size then 1 else 0

/-- The result none is the wait for space. -/
def beginOp (d : FileLog) : Option FileLog :=
  if LOGSIZE < d.lh.length + (d.outstanding + 1) * MAXOPBLOCKS then none
  else some { d with outstanding := d.outstanding + 1 }

/-- The last operation commits, and the header is empty then. -/
def endOp (d : FileLog) : FileLog :=
  { d with outstanding := d.outstanding - 1, lh := if d.outstanding - 1 = 0 then [] else d.lh }

end FileLog

/-- Where a process is in filewrite, with its locals i and r. -/
inductive WritePc where
  | idle
  | loop (i : Nat)
  | begun (i : Nat)
  | unlocked (i : Nat) (r : Int)
  deriving DecidableEq

/-- The fields from old on are of the proofs alone: the content before the first call, the
pieces in the order in which they became part of the file, the buffers and the results of
the calls that have returned, the bytes of all calls and of old, the size of the file at
the last commit, and the bytes of the pieces that began after it. -/
structure Writers (P : Type) where
  ip : Inode
  file : File
  log : FileLog
  pc : P → WritePc := fun _ => .idle
  buf : P → List UInt8 := fun _ => []
  old : List UInt8
  order : List (P × List UInt8) := []
  calls : P → List (List UInt8) := fun _ => []
  returned : P → List Int := fun _ => []
  total : Nat
  base : Nat
  group : Nat := 0

inductive WriteAct (P : Type) where
  | filewrite (p : P) (addr : List UInt8)
  | run (p : P)

/-- The local n1 of filewrite. -/
def filewriteN1 (n i : Nat) : Nat := if filewriteMax < n - i then filewriteMax else n - i

def Inode.content (ip : Inode) : List UInt8 := (List.range ip.size).map ip.data

namespace Writers
variable {P : Type} [DecidableEq P]

def goto (s : Writers P) (p : P) (pc : WritePc) : Writers P :=
  { s with pc := update s.pc p pc }

def ret (s : Writers P) (p : P) (r : Int) : Writers P :=
  { s.goto p .idle with
    calls := update s.calls p (s.calls p ++ [s.buf p])
    returned := update s.returned p (s.returned p ++ [r]) }

def filewrite (s : Writers P) (p : P) (addr : List UInt8) : Except Panic (Writers P) :=
  if s.pc p = .idle then
    let s := { s with buf := update s.buf p addr, total := s.total + addr.length }
    if ¬s.file.writable then .ok (s.ret p (-1))
    else match s.file.type with
      | .pipe => .error .pipeFile
      | .none => .error .filewrite
      | .inode => .ok (s.goto p (.loop 0))
  else .ok s

/-- From ilock to iunlock. -/
def piece (s : Writers P) (p : P) (i : Nat) : Except Panic (Writers P) := do
  let n1 := filewriteN1 (s.buf p).length i
  let (r, ip) ← writei s.ip (fun j => (s.buf p).getD (i + j) 0) s.file.off n1
  let log ← if r < 0 then .ok s.log else s.log.writei s.ip.size s.file.off n1
  .ok { s.goto p (.unlocked i r) with
    ip := ip
    log := log
    file := if 0 < r then { s.file with off := s.file.off + r.toNat } else s.file
    order := if 0 < r then s.order ++ [(p, ((s.buf p).drop i).take n1)] else s.order }

def endOp (s : Writers P) : Writers P :=
  { s with
    log := s.log.endOp
    base := if s.log.endOp.outstanding = 0 then s.ip.size else s.base
    group := if s.log.endOp.outstanding = 0 then 0 else s.group }

def run (s : Writers P) (p : P) : Except Panic (Writers P) :=
  let n := (s.buf p).length
  match s.pc p with
  | .idle => .ok s
  | .loop i =>
    if i < n then match s.log.beginOp with
      | none => .ok s
      | some log => .ok { s.goto p (.begun i) with log := log, group := s.group + filewriteN1 n i }
    else .ok (s.ret p (if i = n then n else -1))
  | .begun i => s.piece p i
  | .unlocked i r =>
    if r < 0 then .ok (s.endOp.ret p (if i = n then n else -1))
    else if r ≠ filewriteN1 n i then .error .shortFilewrite
    else .ok (s.endOp.goto p (.loop (i + r.toNat)))

def step (s : Writers P) : WriteAct P → Except Panic (Writers P)
  | .filewrite p addr => s.filewrite p addr
  | .run p => s.run p

end Writers

/-- Together with what the file had, the calls stay within the largest file, and the disk
has the blocks for them. -/
def WriteAct.Fits {P : Type} (s : Writers P) : WriteAct P → Prop
  | .filewrite _ addr => s.total + addr.length ≤ MAXFILE * BSIZE ∧
      s.log.missing (s.total + addr.length) ≤ s.log.free.length
  | .run _ => True

/-- The pieces that begin before the log commits have at most 24 blocks of data. -/
def WriteAct.Groups {P : Type} (s : Writers P) : WriteAct P → Prop
  | .filewrite _ _ => True
  | .run p => match s.pc p with
    | .loop i => s.group + filewriteN1 (s.buf p).length i ≤ 24 * BSIZE
    | _ => True

/-- A regular file with its blocks, open for writing, with its offset at the end, no call
yet and nothing in the log. -/
structure WritersStart {P : Type} (s : Writers P) : Prop where
  type : s.file.type = .inode
  writable : s.file.writable = true
  regular : s.ip.type = .file
  atEnd : s.file.off = s.ip.size
  old : s.old = s.ip.content
  total : s.total = s.ip.size
  small : s.ip.size ≤ MAXFILE * BSIZE
  idle : ∀ p, s.pc p = .idle
  order : s.order = []
  calls : ∀ p, s.calls p = []
  returned : ∀ p, s.returned p = []
  base : s.base = s.ip.size
  group : s.group = 0
  empty : s.log.lh = []
  quiet : s.log.outstanding = 0
  mapped : s.log.missing s.ip.size = 0

section Content
variable {ip : Inode}

theorem Inode.content_append {n : Nat} {xs : List UInt8} (length : xs.length = n)
    (data : ∀ j < n, ip.data (ip.size + j) = xs.getD j 0) :
    Inode.content { ip with size := ip.size + n } = ip.content ++ xs := by
  subst length
  unfold Inode.content
  rw [List.range_add, List.map_append, List.map_map]
  congr 1
  apply List.ext_getElem
  · simp
  · intro j less less'
    simp [data j less', List.getElem?_eq_getElem less']

theorem filewriteN1_le (n i : Nat) : filewriteN1 n i ≤ n - i := by
  unfold filewriteN1
  split <;> omega

theorem filewriteN1_pos {n i : Nat} (more : i < n) : 0 < filewriteN1 n i := by
  unfold filewriteN1
  split
  · decide
  · omega

theorem filewriteN1_next (n i : Nat) : i + filewriteN1 n i = min (i + filewriteMax) (max i n) := by
  unfold filewriteN1
  split <;> omega

theorem take_filewriteN1 (xs : List UInt8) (i : Nat) :
    (xs.drop i).take (filewriteN1 xs.length i) = (xs.drop i).take filewriteMax := by
  unfold filewriteN1
  split
  · rfl
  · rw [List.take_of_length_le (by simp), List.take_of_length_le (by simp; omega)]

end Content

end MmapXv6
