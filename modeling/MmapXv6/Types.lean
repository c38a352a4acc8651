import Mathlib.Algebra.Group.Int.Defs
import Mathlib.Algebra.GroupWithZero.Nat
import MmapXv6.Lib.Fifo

/-! The constants and the records of the kernel's header files: param.h, mmu.h,
memlayout.h, proc.h, mmap.h and semaphore.h. A pointer into a static table is an
index of that table and a null pointer is none. An unsigned int is a Nat below
2^32, so every place where the source wraps around says so. -/
namespace MmapXv6

abbrev NPROC : Nat := 64
abbrev NOFILE : Nat := 16
abbrev NFILE : Nat := 100
abbrev NINODE : Nat := 50
abbrev MAXARG : Nat := 32
abbrev MAXOPBLOCKS : Nat := 10
abbrev LOGSIZE : Nat := MAXOPBLOCKS * 3
abbrev NBUF : Nat := MAXOPBLOCKS * 3
abbrev MLFLEVELS : Nat := 4
abbrev AGEFORAGINGS : Nat := 5
abbrev MLFMAXPRIORITY : Nat := 0
abbrev MAXSEM : Nat := 64
abbrev MAXPROCSEM : Nat := 5
abbrev MAXSTACKPAGES : Nat := 8
abbrev MAXMAPPEDFILES : Nat := 5
abbrev PGSIZE : Nat := 4096
abbrev NPDENTRIES : Nat := 1024
abbrev NPTENTRIES : Nat := 1024
abbrev EXTMEM : Nat := 0x100000
abbrev PHYSTOP : Nat := 0xE000000
abbrev DEVSPACE : Nat := 0xFE000000
abbrev KERNBASE : Nat := 0x80000000
abbrev KERNLINK : Nat := KERNBASE + EXTMEM
abbrev BSIZE : Nat := 512
abbrev NDIRECT : Nat := 12
abbrev NINDIRECT : Nat := BSIZE / 4
abbrev MAXFILE : Nat := NDIRECT + NINDIRECT
abbrev INPUTBUF : Nat := 128

-- the tables have a first entry, so a literal can name it
instance : NeZero NPROC := ⟨by decide⟩
instance : NeZero NOFILE := ⟨by decide⟩
instance : NeZero NFILE := ⟨by decide⟩
instance : NeZero NINODE := ⟨by decide⟩
instance : NeZero MAXMAPPEDFILES := ⟨by decide⟩

abbrev Slot := Fin NPROC

/-- Every panic message of the modelled functions, and the accesses outside an
array or through an absent page that C leaves undefined. -/
inductive Panic where
  | emptyLevel            -- "empty level"
  | unqueueNotRunnable    -- "unqueue not RUNNABLE process"
  | notFirstOfLevel       -- "it does not eliminate the first element of the level."
  | mlfOutOfBounds        -- ptable.mlf indexed with priority >= MLFLEVELS
  | userinitMemory        -- "userinit: out of memory?"
  | initExiting           -- "init exiting"
  | tooBigTransaction     -- "too big a transaction"
  | outsideTransaction    -- "log_write outside of trans"
  | logCommitting         -- "log.committing"
  | logHeaderOverflow     -- log.lh.sector indexed with LOGSIZE
  | semclose              -- "semclose"
  | semdup                -- "semdup error"
  | noBuffers             -- "bget: no buffers"
  | bwriteNotBusy         -- "bwrite"
  | brelseNotBusy         -- "brelse"
  | iderwNotBusy          -- "iderw: buf not busy"
  | iderwNothingToDo      -- "iderw: nothing to do"
  | iderwWrongDisk        -- "iderw: request not for disk 1"
  | iderwOutOfRange       -- "iderw: sector out of range"
  | iderwNoDisk1          -- "iderw: ide disk 1 not present"
  | idestart              -- "idestart"
  | remap                 -- "remap"
  | kfree                 -- "kfree"
  | trapAllocStack        -- "trap alloc stack"
  | trapAllocMmap         -- "trap alloc mmap"
  | trap                  -- "trap": a fault in the kernel that the handler does not serve
  | absentPage            -- the kernel copies to or from a page that is not present
  | loaduvmAligned        -- "loaduvm: addr must be page aligned"
  | loaduvmNoPte          -- "loaduvm: address should exist"
  | copyuvmNoPte          -- "copyuvm: pte should exist"
  | nullPte               -- uva2ka reads the entry of a page table that is not there
  | fileread              -- "fileread"
  | filewrite             -- "filewrite"
  | shortFilewrite        -- "short filewrite"
  | nullInode             -- the ip field of a file that has no inode is read
  | pipeFile              -- piperead or pipewrite, which this part does not model
  | deviceFile            -- devsw read or write, which this part does not model
  | loops                 -- a loop of the source that never ends
  | acquire               -- "acquire"
  | release               -- "release"
  | schedPtableLock       -- "sched ptable.lock"
  | schedLocks            -- "sched locks"
  | schedInterruptible    -- "sched interruptible"
  | popcliInterruptible   -- "popcli - interruptible"
  | popcli                -- "popcli"
  | sleep                 -- "sleep"
  | iunlock               -- "iunlock"
  | selfDeadlock          -- ilock waits for an inode that the waiting process has locked
  | asleep                -- a sleep that nothing in the run ends
  | ballocOutOfBlocks     -- "balloc: out of blocks"
  | freeingFreeBlock      -- "freeing free block"
  | iallocNoInodes        -- "ialloc: no inodes"
  | igetNoInodes          -- "iget: no inodes"
  | ilock                 -- "ilock"
  | ilockNoType           -- "ilock: no type"
  | iputBusy              -- "iput busy"
  | bmapOutOfRange        -- "bmap: out of range"
  | dirlookupNotDir       -- "dirlookup not DIR"
  | dirlinkRead           -- "dirlink read"
  | dirlink               -- "dirlink"
  | isdiremptyReadi       -- "isdirempty: readi"
  | unlinkNlink           -- "unlink: nlink < 1"
  | unlinkWritei          -- "unlink: writei"
  | createIalloc          -- "create: ialloc"
  | createDots            -- "create dots"
  | createDirlink         -- "create: dirlink"
  | filedup               -- "filedup"
  | fileclose             -- "fileclose"
  deriving DecidableEq, Repr

inductive ProcState where
  | unused | embryo | sleeping | runnable | running | zombie
  deriving DecidableEq, Repr

inductive Chan where
  | proc (p : Slot)
  | ticks
  | log
  | sem (s : Fin MAXSEM)
  | buf (b : Fin NBUF)
  | inode (i : Fin NINODE)
  | nread (pipe : Nat)
  | nwrite (pipe : Nat)
  | input
  deriving DecidableEq, Repr

/-- A present page table entry: the physical page it names and its flag bits.
PTE_A and the cache bits are left out, since nothing in the kernel reads them. -/
structure Pte where
  pa : Nat
  writable : Bool
  user : Bool
  dirty : Bool
  deriving DecidableEq, Repr

/-- A page directory. The field page is the physical page that holds it, tab gives
the physical page of the page table behind each present directory entry, and pte
the entries by virtual page number. -/
structure PgDir where
  page : Nat := 0
  tab : Nat → Option Nat := fun _ => none
  pte : Nat → Option Pte := fun _ => none

structure Mmap where
  pfile : Option (Fin NFILE) := none
  va : Nat := 0
  sz : Nat := 0
  deriving DecidableEq, Repr

structure Semaphore where
  id : Int := 0
  references : Int := 0
  value : Int := 0
  deriving DecidableEq, Repr

structure Trapframe where
  eip : Nat := 0
  esp : Nat := 0
  deriving DecidableEq, Repr

/-- The struct proc of proc.h, zero-initialised as the bss segment is. The fields
context and cwd are not read by the modelled functions, kstack and ticks are kept beside
the table by the functions that use them, and name is the string without its end. -/
structure Proc where
  sz : Nat := 0
  pgdir : PgDir := {}
  state : ProcState := .unused
  pid : Int := 0
  parent : Option Slot := none
  chan : Option Chan := none
  killed : Bool := false
  ofile : Fin NOFILE → Option (Fin NFILE) := fun _ => none
  priority : Nat := 0
  next : Option Slot := none
  age : Nat := 0
  osemaphore : Fin MAXPROCSEM → Option (Fin MAXSEM) := fun _ => none
  sstack : Nat := 0
  tf : Trapframe := {}
  name : List UInt8 := []
  ommap : Fin MAXMAPPEDFILES → Mmap := fun _ => {}

structure Mlf where
  first : Option Slot := none
  last : Option Slot := none
  deriving DecidableEq, Repr

/-- The history has the calls of make_runnable and unqueue so far, the latest first. It is of the
proofs alone. -/
structure Ptable where
  proc : Slot → Proc := fun _ => {}
  mlf : Fin MLFLEVELS → Mlf := fun _ => {}
  nextpid : Int := 1
  initproc : Option Slot := none
  history : List (Lib.QueueOp (Fin MLFLEVELS) Slot) := []

def Ptable.modify (t : Ptable) (p : Slot) (f : Proc → Proc) : Ptable :=
  { t with proc := Function.update t.proc p (f (t.proc p)) }

@[simp] theorem Ptable.modify_self (t : Ptable) (p : Slot) (f : Proc → Proc) :
    (t.modify p f).proc p = f (t.proc p) := by simp [Ptable.modify]

theorem Ptable.modify_ne (t : Ptable) {p q : Slot} (f : Proc → Proc) (h : q ≠ p) :
    (t.modify p f).proc q = t.proc q := by simp [Ptable.modify, h]

@[simp] theorem Ptable.modify_mlf (t : Ptable) (p : Slot) (f : Proc → Proc) :
    (t.modify p f).mlf = t.mlf := rfl

end MmapXv6
