import MmapXv6.Lib.Cyclic
import MmapXv6.Lib.Run
import MmapXv6.Pipe.Struct

/-! One pipe of pipe.c and the processes that call pipewrite, piperead and pipeclose on
it. The spinlock of the pipe is explicit. A step is what a process does between two
accesses to something that others may touch while it holds that lock: the killed flags
and the sleeping processes, which ptable.lock guards. So kill and wakeup may come
between any two steps, and no bound on the number of processes is assumed. -/
namespace MmapXv6

open Function

/-- The two addresses of a pipe that processes sleep on. -/
inductive PipeChan where
  | nread | nwrite
  deriving DecidableEq, Repr

/-- The local variables of pipewrite. The field told is of the proofs alone: the value
of i when the call last woke the readers. -/
structure WriteCall where
  addr : Nat → UInt8
  n : Int
  i : Nat := 0
  told : Nat := 0

/-- The local variables of piperead: got holds the i bytes that are copied to addr. -/
structure ReadCall where
  n : Int
  got : List UInt8 := []

inductive PipePc where
  | out
  | writeAcquire (c : WriteCall)    -- acquire(&p->lock), at the start and at the end of sleep
  | writeFor (c : WriteCall)
  | writeWhile (c : WriteCall)
  | writeWake (c : WriteCall)       -- wakeup(&p->nread) of a full pipe
  | writeSleep (c : WriteCall)
  | writeStore (c : WriteCall)
  | readAcquire (c : ReadCall)
  | readWhile (c : ReadCall)
  | readSleep (c : ReadCall)
  | readFor (c : ReadCall)
  | readTake (c : ReadCall)
  | closeAcquire (writable : Bool)
  | closeSet (writable : Bool)
  | closeTest
  | leave (r : Int)                 -- release(&p->lock) and return r

def PipePc.Inside : PipePc → Prop
  | .out | .writeAcquire _ | .readAcquire _ | .closeAcquire _ => False
  | _ => True

/-- The fields stored, taken and reads are of the proofs alone: the bytes in the order
they were put into the pipe and taken from it, and what each call of piperead returned. -/
structure PipeSys (P : Type) where
  pipe : Pipe
  lock : Option P := none
  pc : P → PipePc := fun _ => .out
  asleep : P → Option PipeChan := fun _ => none
  killed : P → Bool := fun _ => false
  freed : Bool := false
  stored : List UInt8 := []
  taken : List UInt8 := []
  reads : List (List UInt8) := []

inductive PipeAct (P : Type) where
  | pipewrite (p : P) (addr : Nat → UInt8) (n : Int)
  | piperead (p : P) (n : Int)
  | pipeclose (p : P) (writable : Bool)
  | run (p : P)
  | kill (p : P)

namespace PipeSys
variable {P : Type}

def wakeup (s : PipeSys P) (chan : PipeChan) : PipeSys P :=
  { s with asleep := fun p => if s.asleep p = some chan then none else s.asleep p }

variable [DecidableEq P]

def goto (s : PipeSys P) (p : P) (pc : PipePc) : PipeSys P :=
  { s with pc := update s.pc p pc }

def acquire (s : PipeSys P) (p : P) (pc : PipePc) : PipeSys P :=
  if s.lock = none then { s with lock := some p }.goto p pc else s

/-- The release of the lock and the change to SLEEPING, both under ptable.lock. -/
def sleep (s : PipeSys P) (p : P) (chan : PipeChan) (pc : PipePc) : PipeSys P :=
  { s with lock := none, asleep := update s.asleep p (some chan) }.goto p pc

def store (s : PipeSys P) (p : P) (c : WriteCall) : PipeSys P :=
  { s with pipe := s.pipe.store (c.addr c.i), stored := s.stored ++ [c.addr c.i] }.goto p
    (.writeFor { c with i := c.i + 1 })

def take (s : PipeSys P) (p : P) (c : ReadCall) : PipeSys P :=
  { s with pipe := s.pipe.advance, taken := s.taken ++ [s.pipe.next] }.goto p
    (.readFor { c with got := c.got ++ [s.pipe.next] })

def close (s : PipeSys P) (p : P) (writable : Bool) : PipeSys P :=
  (({ s with pipe := s.pipe.close writable }.wakeup (if writable then .nread else .nwrite)).goto p
    .closeTest)

def freeClosed (s : PipeSys P) (p : P) : PipeSys P :=
  { s with lock := none, freed := !s.pipe.readopen && !s.pipe.writeopen }.goto p .out

def endRead (s : PipeSys P) (p : P) (c : ReadCall) : PipeSys P :=
  { s with reads := s.reads ++ [c.got] }.wakeup .nwrite |>.goto p (.leave c.got.length)

def next (s : PipeSys P) (p : P) : PipePc → PipeSys P
  | .out => s
  | .writeAcquire c => s.acquire p (.writeFor c)
  | .writeFor c =>
    if c.i < c.n then s.goto p (.writeWhile c) else (s.wakeup .nread).goto p (.leave c.n)
  | .writeWhile c =>
    if s.pipe.Full then
      if s.pipe.readopen = false ∨ s.killed p = true then s.goto p (.leave (-1))
      else s.goto p (.writeWake c)
    else s.goto p (.writeStore c)
  | .writeWake c => (s.wakeup .nread).goto p (.writeSleep { c with told := c.i })
  | .writeSleep c => s.sleep p .nwrite (.writeAcquire c)
  | .writeStore c => s.store p c
  | .readAcquire c => s.acquire p (.readWhile c)
  | .readWhile c =>
    if s.pipe.Empty ∧ s.pipe.writeopen = true then
      if s.killed p = true then s.goto p (.leave (-1)) else s.goto p (.readSleep c)
    else s.goto p (.readFor c)
  | .readSleep c => s.sleep p .nread (.readAcquire c)
  | .readFor c =>
    if c.got.length < c.n ∧ ¬ s.pipe.Empty then s.goto p (.readTake c) else s.endRead p c
  | .readTake c => s.take p c
  | .closeAcquire writable => s.acquire p (.closeSet writable)
  | .closeSet writable => s.close p writable
  | .closeTest => s.freeClosed p
  | .leave _ => { s with lock := none }.goto p .out

def run (s : PipeSys P) (p : P) : PipeSys P :=
  if s.asleep p = none then s.next p (s.pc p) else s

def call (s : PipeSys P) (p : P) (pc : PipePc) : PipeSys P :=
  match s.pc p with
  | .out => s.goto p pc
  | _ => s

def kill (s : PipeSys P) (p : P) : PipeSys P :=
  { s with
    killed := update s.killed p true
    asleep := update s.asleep p none }

/-- A page that pipeclose has freed is no pipe any more. -/
def step (s : PipeSys P) (a : PipeAct P) : Except Panic (PipeSys P) :=
  if s.freed = true then .ok s else
  match a with
  | .pipewrite p addr n => .ok (s.call p (.writeAcquire { addr := addr, n := n }))
  | .piperead p n => .ok (s.call p (.readAcquire { n := n }))
  | .pipeclose p writable => .ok (s.call p (.closeAcquire writable))
  | .run p => .ok (s.run p)
  | .kill p => .ok (s.kill p)

def Initial (s : PipeSys P) : Prop :=
  ∃ data killed, s = { pipe := { data := data }, killed := killed }

end PipeSys

end MmapXv6
