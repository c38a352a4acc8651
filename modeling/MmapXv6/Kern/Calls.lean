import MmapXv6.Kern.Locks

/-! The system calls that copy to or from a user buffer, with the locks they hold
during the copy: piperead and pipewrite of pipe.c, consoleread and consolewrite of
console.c, readi, writei and stati of fs.c, fileread, filewrite and filestat of file.c,
and the page-fault handler that a copy may enter. The handler's own fileread copies to
the page that the handler has just allocated, so what copies is an argument. -/
namespace MmapXv6

namespace Kern

def putResident (k : Kern) (a : Nat) (b : UInt8) : Except Panic Kern :=
  match k.vm.admits a true false with
  | none => .error .absentPage
  | some e =>
    let page := Function.update (k.vm.kmem.mem e.pa) (a % PGSIZE) b
    .ok { k with vm := k.vm.fill (a / PGSIZE) e page }

def getResident (k : Kern) (a : Nat) : Except Panic (UInt8 × Kern) :=
  match k.vm.admits a false false with
  | none => .error .absentPage
  | some e => .ok (k.vm.kmem.mem e.pa (a % PGSIZE), k)

def setPipe (k : Kern) (p : Nat) (q : Pipe) : Kern :=
  { k with world := { k.world with pipe := Function.update k.world.pipe p q } }

def setInput (k : Kern) (input : Input) : Kern :=
  { k with world := { k.world with input := input } }

def setFs (k : Kern) (fs : Fs) : Kern := { k with vm := { k.vm with fs := fs } }

/-- A wait whose condition is a matter of the world: false is the return with -1. -/
def waitUntil (lk : Spinlock) (blocked giveUp : Kern → Bool) (notify : Bool) :
    List (Option World) → Kern → Except Panic (Bool × Kern)
  | [], k => if blocked k then if giveUp k then .ok (false, k) else .error .asleep
      else .ok (true, k)
  | wake :: rest, k =>
    if blocked k then
      if giveUp k then .ok (false, k)
      else match wake with
        | none => .error .asleep
        | some w => do
          let k ← k.onlyIf (notify = true) wakeup
          let k ← k.sleep lk
          waitUntil lk blocked giveUp notify rest { k with world := w, waits := rest }
    else .ok (true, k)

def pipeEmpty (p : Nat) (k : Kern) : Bool :=
  decide (k.world.pipe p).Empty

def balloc (k : Kern) : Except Panic Kern := do
  let k ← k.useBlock
  let k ← k.logWrite
  let k ← k.useBlock
  k.logWrite

def bmap (ip : Fin NINODE) (bn : Nat) (k : Kern) : Except Panic Kern :=
  let size := (k.vm.fs.inode ip).size
  if bn < NDIRECT then k.onlyIf (size ≤ bn * BSIZE) balloc
  else do
    let k ← k.onlyIf (size ≤ NDIRECT * BSIZE) balloc
    let k ← k.bread
    let k ← k.onlyIf (size ≤ bn * BSIZE) fun k => do
      let k ← k.balloc
      k.logWrite
    k.brelse

section Reads
variable (put : Kern → Nat → UInt8 → Except Panic Kern)

def pipereadLoop (p addr : Nat) : Nat → Kern → Nat → Except Panic (Nat × Kern)
  | 0, k, i => .ok (i, k)
  | n + 1, k, i =>
    if pipeEmpty p k then .ok (i, k)
    else do
      let q := k.world.pipe p
      let k ← put (k.setPipe p q.advance) (addr + i) q.next
      pipereadLoop p addr n k (i + 1)

def piperead (k : Kern) (p addr : Nat) (n : Int) : Except Panic (Int × Kern) := do
  let k ← k.acquire (.pipe p)
  let (ready, k) ← waitUntil (.pipe p) (fun k => pipeEmpty p k && (k.world.pipe p).writeopen)
    (fun k => k.vm.proc.killed) false k.waits k
  if ready then do
    let (i, k) ← pipereadLoop put p addr n.toNat k 0
    let k ← k.wakeup
    let k ← k.release (.pipe p)
    .ok (i, k)
  else do
    let k ← k.release (.pipe p)
    .ok (-1, k)

/-- The result none is the return of a killed process, otherwise what is left of n. -/
def consolereadLoop (target : Nat) : Nat → Kern → Nat → Except Panic (Option Nat × Kern)
  | 0, k, _ => .ok (some 0, k)
  | n + 1, k, dst => do
    let (ready, k) ← waitUntil .input (fun k => decide (k.world.input.r = k.world.input.w))
      (fun k => k.vm.proc.killed) false k.waits k
    if ready then
      let input := k.world.input
      let c := input.buf (input.r % INPUTBUF)
      if c = 4 then
        -- end of file: it is kept for the next read unless it is all there is
        .ok (some (n + 1),
          if n + 1 < target then k else k.setInput { input with r := input.r + 1 })
      else do
        let k ← put (k.setInput { input with r := input.r + 1 }) dst c
        if c = 10 then .ok (some n, k) else consolereadLoop target n k (dst + 1)
    else .ok (none, k)

def consoleread (k : Kern) (ip : Fin NINODE) (dst : Nat) (n : Int) : Except Panic (Int × Kern) := do
  let k ← k.iunlock ip
  let k ← k.acquire .input
  let (left, k) ← consolereadLoop put n.toNat n.toNat k dst
  let k ← k.release .input
  let k ← k.ilock ip
  match left with
  | none => .ok (-1, k)
  | some left => .ok (n - left, k)

def copyOut (ip : Fin NINODE) (dst off m : Nat) (k : Kern) : Except Panic Kern :=
  (List.range m).foldlM (fun k j => put k (dst + j) ((k.vm.fs.inode ip).data (off + j))) k

def readiLoop (ip : Fin NINODE) (n : Nat) : Nat → Kern → Nat → Nat → Nat → Except Panic Kern
  | 0, _, _, _, _ => .error .loops
  | fuel + 1, k, dst, off, tot =>
    if tot < n then do
      let k ← k.bmap ip (off / BSIZE)
      let k ← k.bread
      let m := min (n - tot) (BSIZE - off % BSIZE)
      let k ← copyOut put ip dst off m k
      let k ← k.brelse
      readiLoop ip n fuel k (dst + m) (off + m) (tot + m)
    else .ok k

def readi (k : Kern) (ip : Fin NINODE) (dst off n : Nat) : Except Panic (Int × Kern) :=
  let inode := k.vm.fs.inode ip
  if inode.type = .dev then
    if k.console ip then consoleread put k ip dst (Lib.toInt n) else .ok (-1, k)
  else if inode.size < off ∨ (off + n) % 2 ^ 32 < off then .ok (-1, k)
  else do
    let n := if inode.size < off + n then inode.size - off else n
    let k ← readiLoop put ip n (n + 1) k dst off 0
    .ok (n, k)

def fileread (k : Kern) (f : Fin NFILE) (addr : Nat) (n : Int) : Except Panic (Int × Kern) :=
  let file := k.vm.fs.file f
  if ¬file.readable then .ok (-1, k)
  else match file.type, file.ip with
    | .pipe, _ => piperead put k (k.pipeOf f) addr n
    | .none, _ => .error .fileread
    | .inode, none => .error .nullInode
    | .inode, some i => do
      let k ← k.ilock i
      let (r, k) ← readi put k i addr file.off (n % 2 ^ 32).toNat
      let k := if 0 < r then k.setFs (k.vm.fs.setOff f ((k.vm.fs.file f).off + r.toNat)) else k
      let k ← k.iunlock i
      .ok (r, k)

end Reads

/-- The page-fault branch of trap for a fault in the kernel. -/
def fault (k : Kern) (cr2 : Nat) : Except Panic Kern :=
  let basepgaddr := PGROUNDDOWN cr2
  if k.vm.proc.sstack ≤ cr2 ∧ cr2 < (k.vm.proc.sstack + MAXSTACKPAGES * PGSIZE) % 2 ^ 32 then do
    let k ← k.cprintf
    let k ← k.withLock .kmem
    let (r, u) ← allocuvm k.vm.uvm basepgaddr ((basepgaddr + PGSIZE) % 2 ^ 32)
    if r = 0 then .error .trapAllocStack else .ok { k with vm := k.vm.setUvm u }
  else match mmapin k.vm.proc.ommap cr2 with
    | some i => do
      let k ← k.cprintf
      let k ← k.withLock .kmem
      let (r, u) ← allocuvm k.vm.uvm basepgaddr ((basepgaddr + PGSIZE) % 2 ^ 32)
      if r = 0 then .error .trapAllocMmap
      else match (k.vm.proc.ommap i).pfile with
        | none => .error .nullInode
        | some f => do
          let k := { k with vm := k.vm.setUvm u }
          let fs ← fileseek k.vm.fs f ((basepgaddr + 2 ^ 32 - (k.vm.proc.ommap i).va) % 2 ^ 32)
          let (_, k) ← fileread putResident (k.setFs fs) f basepgaddr PGSIZE
          .ok k
    | none => do
      let _ ← k.cprintf
      .error .trap

/-- A byte that the kernel copies to a user address, or from one. -/
def put (k : Kern) (a : Nat) (b : UInt8) : Except Panic Kern :=
  match k.vm.admits a true false with
  | some _ => k.putResident a b
  | none => do
    let k ← k.fault a
    k.putResident a b

def get (k : Kern) (a : Nat) : Except Panic (UInt8 × Kern) :=
  match k.vm.admits a false false with
  | some _ => k.getResident a
  | none => do
    let k ← k.fault a
    k.getResident a

section Writes

def pipewriteLoop (p addr n : Nat) : Nat → Kern → Nat → Except Panic (Int × Kern)
  | 0, k, _ => .ok (n, k)
  | rest + 1, k, i => do
    let (ready, k) ← waitUntil (.pipe p)
      (fun k => decide (k.world.pipe p).Full)
      (fun k => !(k.world.pipe p).readopen || k.vm.proc.killed) true k.waits k
    if ready then do
      let (b, k) ← k.get (addr + i)
      pipewriteLoop p addr n rest (k.setPipe p ((k.world.pipe p).store b)) (i + 1)
    else .ok (-1, k)

def pipewrite (k : Kern) (p addr : Nat) (n : Int) : Except Panic (Int × Kern) := do
  let k ← k.acquire (.pipe p)
  let (r, k) ← pipewriteLoop p addr n.toNat n.toNat k 0
  let k ← k.onlyIf (0 ≤ r) wakeup
  let k ← k.release (.pipe p)
  .ok (if r < 0 then -1 else n, k)

def copyIn (src m : Nat) (k : Kern) : Except Panic (List UInt8 × Kern) :=
  (List.range m).foldlM (fun (r : List UInt8 × Kern) j => do
    let (b, k) ← r.2.get (src + j)
    .ok (r.1 ++ [b], k)) ([], k)

def consolewrite (k : Kern) (ip : Fin NINODE) (buf : Nat) (n : Int) :
    Except Panic (Int × Kern) := do
  let k ← k.iunlock ip
  let k ← k.acquire .cons
  let (_, k) ← k.copyIn buf n.toNat
  let k ← k.release .cons
  let k ← k.ilock ip
  .ok (n, k)

def storeData (k : Kern) (ip : Fin NINODE) (off : Nat) (bytes : List UInt8) : Kern :=
  let inode := k.vm.fs.inode ip
  k.setFs (k.vm.fs.setInode ip { inode with
    data := fun j => if off ≤ j ∧ j < off + bytes.length then bytes.getD (j - off) 0
      else inode.data j })

def writeiLoop (ip : Fin NINODE) (n : Nat) : Nat → Kern → Nat → Nat → Nat → Except Panic Kern
  | 0, _, _, _, _ => .error .loops
  | fuel + 1, k, src, off, tot =>
    if tot < n then do
      let k ← k.bmap ip (off / BSIZE)
      let k ← k.bread
      let m := min (n - tot) (BSIZE - off % BSIZE)
      let (bytes, k) ← k.copyIn src m
      let k ← (k.storeData ip off bytes).logWrite
      let k ← k.brelse
      writeiLoop ip n fuel k (src + m) (off + m) (tot + m)
    else .ok k

/-- ip->size = off; iupdate(ip) -/
def growInode (ip : Fin NINODE) (off : Nat) (k : Kern) : Except Panic Kern := do
  let k := k.setFs (k.vm.fs.setInode ip { k.vm.fs.inode ip with size := off })
  let k ← k.bread
  let k ← k.logWrite
  k.brelse

def writei (k : Kern) (ip : Fin NINODE) (src off n : Nat) : Except Panic (Int × Kern) :=
  let inode := k.vm.fs.inode ip
  if inode.type = .dev then
    if k.console ip then consolewrite k ip src (Lib.toInt n) else .ok (-1, k)
  else if inode.size < off ∨ (off + n) % 2 ^ 32 < off then .ok (-1, k)
  else if MAXFILE * BSIZE < off + n then .ok (-1, k)
  else do
    let k ← writeiLoop ip n (n + 1) k src off 0
    let k ← k.onlyIf (0 < n ∧ inode.size < off + n) (growInode ip (off + n))
    .ok (n, k)

def filewriteLoop (f : Fin NFILE) (ip : Fin NINODE) (addr n : Nat) :
    Nat → Kern → Nat → Except Panic (Nat × Kern)
  | 0, _, _ => .error .loops
  | fuel + 1, k, i =>
    if i < n then do
      let n1 := min (n - i) filewriteMax
      let k ← k.beginOp
      let k ← k.ilock ip
      let (r, k) ← writei k ip (addr + i) (k.vm.fs.file f).off n1
      let k := if 0 < r then k.setFs (k.vm.fs.setOff f ((k.vm.fs.file f).off + r.toNat)) else k
      let k ← k.iunlock ip
      let k ← k.endOp
      if r < 0 then .ok (i, k)
      else if r ≠ n1 then .error .shortFilewrite
      else filewriteLoop f ip addr n fuel k (i + n1)
    else .ok (i, k)

def filewrite (k : Kern) (f : Fin NFILE) (addr : Nat) (n : Int) : Except Panic (Int × Kern) :=
  let file := k.vm.fs.file f
  if ¬file.writable then .ok (-1, k)
  else match file.type, file.ip with
    | .pipe, _ => pipewrite k (k.pipeOf f) addr n
    | .none, _ => .error .filewrite
    | .inode, none => .error .nullInode
    | .inode, some i => do
      let (done, k) ← filewriteLoop f i addr n.toNat (n.toNat + 1) k 0
      .ok (if done = n then n else -1, k)

end Writes

def statBytes (k : Kern) (ip : Fin NINODE) : List (Nat × UInt8) :=
  let bytes (off width v : Nat) := (List.range width).map fun j =>
      (off + j, UInt8.ofNat (v / 2 ^ (8 * j)))
  let type : Nat := match (k.vm.fs.inode ip).type with | .dir => 1 | .file => 2 | .dev => 3
  bytes 4 4 (k.stat ip).dev ++ bytes 8 4 (k.stat ip).inum ++ bytes 0 2 type ++
    bytes 12 2 (k.stat ip).nlink ++ bytes 16 4 (k.vm.fs.inode ip).size

def stati (k : Kern) (ip : Fin NINODE) (st : Nat) : Except Panic Kern :=
  (k.statBytes ip).foldlM (fun k b => k.put (st + b.1) b.2) k

def filestat (k : Kern) (f : Fin NFILE) (st : Nat) : Except Panic (Int × Kern) :=
  match (k.vm.fs.file f).type, (k.vm.fs.file f).ip with
  | .inode, some ip => do
    let k ← k.ilock ip
    let k ← k.stati ip st
    let k ← k.iunlock ip
    .ok (0, k)
  | .inode, none => .error .nullInode
  | _, _ => .ok (-1, k)

def fetchstr : Nat → Kern → Nat → Nat → Except Panic (Option Nat × Kern)
  | 0, k, _, _ => .ok (none, k)
  | n + 1, k, a, len => do
    let (b, k) ← k.get a
    if b = 0 then .ok (some len, k) else fetchstr n k (a + 1) (len + 1)

/-- One directory on the way: while it is locked its blocks and the path are read. -/
def namexStep (path len : Nat) (k : Kern) (dp : Fin NINODE) : Except Panic Kern := do
  let k ← k.ilock dp
  let k ← k.useBlock
  let (_, k) ← k.copyIn path (len + 1)
  k.iunlock dp

end Kern

/-- A system call. What open finds on the disk is given: the directories it locks on
the way, and the file table and inodes after it. -/
inductive KernCall where
  | openPath (path : Nat) (dirs : List (Fin NINODE)) (fd : Fin NOFILE) (f : Fin NFILE) (fs : Fs)
  | pipe (fd : Nat) (fds : Nat × Nat) (ofile : Fin NOFILE → Option (Fin NFILE)) (fs : Fs)
  | mmap (fd : Int) (addr : Nat)
  | read (fd : Int) (p : Nat) (n : Int)
  | write (fd : Int) (p : Nat) (n : Int)
  | fstat (fd : Int) (st : Nat)

namespace Kern

def accepts (k : Kern) (p : Nat) (size : Int) : Bool :=
  decide (p < k.vm.proc.sz) && decide ((((p : Int) + size) % 2 ^ 32).toNat ≤ k.vm.proc.sz)

def sysOpen (k : Kern) (path : Nat) (dirs : List (Fin NINODE)) (fd : Fin NOFILE) (f : Fin NFILE)
    (fs : Fs) : Except Panic Kern := do
  match ← fetchstr (k.vm.proc.sz - path) k path 0 with
  | (none, k) => .ok k
  | (some len, k) => do
    let k ← k.beginOp
    let k ← dirs.foldlM (namexStep path len) k
    let k ← k.endOp
    .ok { k with vm := { k.vm with
      fs := fs, proc := { k.vm.proc with ofile := Function.update k.vm.proc.ofile fd (some f) } } }

def putWord (k : Kern) (addr w : Nat) : Except Panic Kern :=
  (wordBytes addr w).foldlM (fun k b => k.put b.1 b.2) k

def sysPipe (k : Kern) (fd : Nat) (fds : Nat × Nat) (ofile : Fin NOFILE → Option (Fin NFILE))
    (fs : Fs) : Except Panic Kern :=
  if k.accepts fd 8 then do
    let k := { k with vm := { k.vm with fs := fs, proc := { k.vm.proc with ofile := ofile } } }
    let k ← k.putWord fd fds.1
    k.putWord (fd + 4) fds.2
  else .ok k

def sysMmap (k : Kern) (fd : Int) (addr : Nat) : Except Panic Kern :=
  match openFile k.vm.proc fd with
  | none => .ok k
  | some f =>
    match freeMmap k.vm.proc.ommap with
    | none => .ok k
    | some i =>
      match (k.vm.fs.file f).ip with
      | none => .error .nullInode
      | some ip =>
        { k with vm := k.vm.addMmap i f (k.vm.fs.inode ip).size }.putWord addr k.vm.proc.sz

def sysRead (k : Kern) (fd : Int) (p : Nat) (n : Int) : Except Panic Kern :=
  match openFile k.vm.proc fd with
  | none => .ok k
  | some f => if k.accepts p n then do .ok (← fileread put k f p n).2 else .ok k

def sysWrite (k : Kern) (fd : Int) (p : Nat) (n : Int) : Except Panic Kern :=
  match openFile k.vm.proc fd with
  | none => .ok k
  | some f => if k.accepts p n then do .ok (← filewrite k f p n).2 else .ok k

def sysFstat (k : Kern) (fd : Int) (st : Nat) : Except Panic Kern :=
  match openFile k.vm.proc fd with
  | none => .ok k
  | some f => if k.accepts st 20 then do .ok (← filestat k f st).2 else .ok k

def step (k : Kern) (call : KernCall × List (Option World)) : Except Panic Kern :=
  let k := { k with waits := call.2 }
  match call.1 with
  | .openPath path dirs fd f fs => k.sysOpen path dirs fd f fs
  | .pipe fd fds ofile fs => k.sysPipe fd fds ofile fs
  | .mmap fd addr => k.sysMmap fd addr
  | .read fd p n => k.sysRead fd p n
  | .write fd p n => k.sysWrite fd p n
  | .fstat fd st => k.sysFstat fd st

end Kern

end MmapXv6
