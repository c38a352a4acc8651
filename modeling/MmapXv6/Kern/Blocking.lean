import MmapXv6.Kern.Calls
import MmapXv6.Proc.Kill
import MmapXv6.Sem.Table

/-! The system calls in which a process waits for another one: semdown, pipewrite,
piperead, wait, sleep and read of the console, and what kill can do to them at every
point. The spinlock of a call is left out, which only adds interleavings: a step ends
where ptable.lock comes in, so kill may fall between the test of the killed flag and
the change to SLEEPING. -/
namespace MmapXv6

open Lib

structure Shared extends World where
  value : SemId → Int := fun _ => 0
  ticks : Nat := 0

/-- A call with its local variables: the bytes that pipewrite still has to store, the n
and the i of piperead, the ticks0 and the n of sleep, the target and the n of
consoleread. Every other system call is other. -/
inductive BlockCall where
  | semdown (x : SemId)
  | pipewrite (i : Nat) (addr : List UInt8)
  | piperead (i : Nat) (n : Nat)
  | wait
  | sleep (ticks0 : Nat) (n : Int)
  | consoleread (target n : Nat)
  | other
  deriving DecidableEq

inductive BlockPc where
  | user
  | loop (c : BlockCall)
  | told (i : Nat) (addr : List UInt8)  -- pipewrite has tested the flag and wakes the readers
  | switch (c : BlockCall)              -- in sleep, before acquire(&ptable.lock)
  | asleep (c : BlockCall)              -- switched out by sleep; back when it runs again
  | notify (chan : Chan)                -- the wakeup at the end of pipewrite and piperead
  | after                               -- the end of a system call, back in trap
  | exit
  deriving DecidableEq

def BlockCall.chan (p : Slot) : BlockCall → Chan
  | .semdown x => .sem x
  | .pipewrite i _ => .nwrite i
  | .piperead i _ => .nread i
  | .wait => .proc p
  | .sleep .. => .ticks
  | .consoleread .. => .input
  | .other => .log

def BlockCall.start (d : Shared) : BlockCall → BlockCall
  | .sleep _ n => .sleep d.ticks n
  | .consoleread _ n => .consoleread n n
  | c => c

/-- The channels of these calls, and not those of the disk, the log and the inodes. -/
def Chan.UserWait : Chan → Prop
  | .log | .buf _ | .inode _ => False
  | _ => True

instance : (chan : Chan) → Decidable chan.UserWait
  | .log | .buf _ | .inode _ => isFalse id
  | .proc _ | .ticks | .sem _ | .nread _ | .nwrite _ | .input => isTrue trivial

structure Blocking where
  table : Ptable
  pc : Slot → BlockPc := fun _ => .user
  shared : Shared := {}

/-- The act shared is what semup, pipeclose, the clock and the keyboard do. -/
inductive BlockAct where
  | syscall (p : Slot) (c : BlockCall)
  | interrupt (p : Slot)
  | fault (p : Slot)
  | run (p : Slot)
  | finish (p : Slot)
  | fork (p : Slot)
  | kill (p : Slot) (pid : Int)
  | sleepOn (p : Slot) (chan : Chan)
  | shared (d : Shared)
  | wakeup (chan : Chan)
  | dispatch
  | yield (p : Slot)
  | calculateaging

namespace Blocking

def goto (s : Blocking) (p : Slot) (pc : BlockPc) : Blocking :=
  { s with pc := Function.update s.pc p pc }

def setPipe (s : Blocking) (i : Nat) (pipe : Pipe) : Blocking :=
  { s with shared := { s.shared with pipe := Function.update s.shared.pipe i pipe } }

def setR (s : Blocking) (r : Nat) : Blocking :=
  { s with shared := { s.shared with input := { s.shared.input with r := r % 2 ^ 32 } } }

/-- The test of the killed flag, in trap and in the loops around sleep. -/
def unlessKilled (s : Blocking) (p : Slot) (out pc : BlockPc) : Blocking :=
  s.goto p (if (s.table.proc p).killed = true then out else pc)

def turn (s : Blocking) (p : Slot) : BlockCall → Blocking
  | .semdown x =>
    -- the only loop that does not test the flag
    if s.shared.value x ≤ 0 then s.goto p (.switch (.semdown x))
    else { s with shared := { s.shared with
      value := Function.update s.shared.value x (s.shared.value x - 1) } }.goto p .after
  | .pipewrite i [] => s.goto p (.notify (.nread i))
  | .pipewrite i (b :: rest) =>
    if (s.shared.pipe i).Full then
      if (s.shared.pipe i).readopen = false then s.goto p .after
      else s.unlessKilled p .after (.told i (b :: rest))
    else (s.setPipe i ((s.shared.pipe i).store b)).goto p (.loop (.pipewrite i rest))
  | .piperead i n =>
    if (s.shared.pipe i).Empty ∧ (s.shared.pipe i).writeopen = true
    then s.unlessKilled p .after (.switch (.piperead i n))
    else
      let held := ((s.shared.pipe i).nwrite + 2 ^ 32 - (s.shared.pipe i).nread) % 2 ^ 32
      (s.setPipe i (Pipe.advance^[min n held] (s.shared.pipe i))).goto p (.notify (.nwrite i))
  | .wait =>
    match MmapXv6.wait s.table p with
    | (.asleep, t) => { s with table := t }.goto p (.asleep .wait)
    | (_, t) => { s with table := t }.goto p .after
  | .sleep ticks0 n =>
    if (s.shared.ticks + 2 ^ 32 - ticks0) % 2 ^ 32 < (n % 2 ^ 32).toNat
    then s.unlessKilled p .after (.switch (.sleep ticks0 n)) else s.goto p .after
  | .consoleread _ 0 => s.goto p .after
  | .consoleread target (n + 1) =>
    let input := s.shared.input
    if input.r = input.w then s.unlessKilled p .after (.switch (.consoleread target (n + 1)))
    else
      let c := input.buf (input.r % INPUTBUF)
      if c = 4 then (if n + 1 < target then s else s.setR (input.r + 1)).goto p .after
      else (s.setR (input.r + 1)).goto p (if c = 10 then .after else .loop (.consoleread target n))
  | .other => s

def next (s : Blocking) (p : Slot) : BlockPc → Except Panic Blocking
  | .user => .ok s
  | .loop c => .ok (s.turn p c)
  | .told i addr => do
    let t ← wakeup1 s.table (some (.nread i))
    return { s with table := t }.goto p (.switch (.pipewrite i addr))
  | .switch c => .ok ({ s with table := MmapXv6.sleep s.table p (c.chan p) }.goto p (.asleep c))
  | .asleep c => .ok (s.goto p (.loop c))
  | .notify chan => do
    let t ← wakeup1 s.table (some chan)
    return { s with table := t }.goto p .after
  | .after => .ok (s.unlessKilled p .exit .user)
  | .exit =>
    if s.table.initproc = some p then .error .initExiting
    else do
      let t ← exitLocked s.table p
      return { s with table := t }

def fork (s : Blocking) (p : Slot) : Except Panic Blocking :=
  match allocproc s.table with
  | none => .ok s
  | some (np, t) => do
    let t ← forkQueue (allocprocSetup t np) p np
    return { s with table := t }.goto np .user

def withTable (s : Blocking) (r : Except Panic Ptable) : Except Panic Blocking := do
  let t ← r
  return { s with table := t }

def Can (s : Blocking) : BlockAct → Prop
  | .syscall p _ | .interrupt p | .fault p => (s.table.proc p).state = .running ∧ s.pc p = .user
  | .run p | .yield p => (s.table.proc p).state = .running
  | .finish p | .fork p | .kill p _ => (s.table.proc p).state = .running ∧ s.pc p = .loop .other
  | .sleepOn p chan =>
    (s.table.proc p).state = .running ∧ s.pc p = .loop .other ∧ ¬ chan.UserWait
  | .shared _ | .wakeup _ | .dispatch | .calculateaging => True

instance decidableCan (s : Blocking) : (a : BlockAct) → Decidable (s.Can a)
  | .syscall .. | .interrupt _ | .fault _ | .finish _ | .fork _ | .kill .. =>
    inferInstanceAs (Decidable (_ ∧ _))
  | .run _ | .yield _ => inferInstanceAs (Decidable (_ = _))
  | .sleepOn .. => inferInstanceAs (Decidable (_ ∧ _ ∧ ¬ _))
  | .shared _ | .wakeup _ | .dispatch | .calculateaging => isTrue trivial

def step (s : Blocking) : BlockAct → Except Panic Blocking
  | .syscall p c => .ok (s.unlessKilled p .exit (.loop (c.start s.shared)))
  | .interrupt p => .ok (s.unlessKilled p .exit .user)
  | .fault p =>
    .ok ({ s with table := s.table.modify p fun q => { q with killed := true } }.goto p .exit)
  | .run p => s.next p (s.pc p)
  | .finish p => .ok (s.goto p .after)
  | .fork p => s.fork p
  | .kill _ pid => do
    let r ← kill s.table pid
    return { s with table := r.2 }
  | .sleepOn p chan => .ok { s with table := MmapXv6.sleep s.table p chan }
  | .shared d => .ok { s with shared := d }
  | .wakeup chan => s.withTable (wakeup1 s.table (some chan))
  | .dispatch => do
    let r ← scheduler s.table
    return { s with table := r.2 }
  | .yield p => s.withTable (MmapXv6.yield s.table p)
  | .calculateaging => s.withTable (MmapXv6.calculateaging s.table)

/-- The system as userinit leaves it, with any contents of pipes and semaphores. -/
def Initial (s : Blocking) : Prop :=
  ∃ shared, s = { table := Sched.initial.table, shared := shared }

end Blocking

end MmapXv6
