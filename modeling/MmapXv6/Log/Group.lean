import MmapXv6.Types
import MmapXv6.Lib.Run

/-! Group commit: begin_op, log_write and end_op as the steps of any number of
processes. A section under log.lock is one step; what the source reads without the
lock, the tests of log_write and the loops of commit, is a step of its own. -/
namespace MmapXv6

open Lib

inductive LogPc where
  | out                   -- outside of any operation
  | begin                 -- in begin_op, about to take log.lock
  | asleep                -- in begin_op, asleep on log
  | inside                -- between begin_op and end_op
  | sized (sector : Nat)  -- in log_write, past the test of lh.n
  | tested (sector : Nat) -- in log_write, past both tests
  | commit                -- in commit, about to test lh.n
  | writeLog (tail : Nat)
  | writeHead
  | installTrans (tail : Nat)
  | clear                 -- about to set lh.n to 0
  | eraseHead
  | finish                -- back in end_op, about to reset committing
  deriving DecidableEq, Repr

/-- The part of the protocol a program counter belongs to; erased is the part of a
commit in which the header has already been emptied. -/
inductive LogZone where
  | idle | op | commit | erased
  deriving DecidableEq, Repr

@[simp] def LogPc.zone : LogPc → LogZone
  | .out | .begin | .asleep => .idle
  | .inside | .sized _ | .tested _ => .op
  | .commit | .writeLog _ | .writeHead | .installTrans _ | .clear => .commit
  | .eraseHead | .finish => .erased

def LogPc.InOp (pc : LogPc) : Prop := pc.zone = .op

def LogPc.InCommit (pc : LogPc) : Prop := pc.zone = .commit ∨ pc.zone = .erased

structure LogOp (P : Type) where
  owner : P
  sectors : List Nat := []

/-- The struct log, the program counters, and a history since the previous commit:
the operations that are live, those that executed end_op, and the sectors that the
running commit has installed. -/
structure LogState (P : Type) where
  lh : List Nat := []
  outstanding : Int := 0
  committing : Bool := false
  pc : P → LogPc := fun _ => .out
  live : List (LogOp P) := []
  ended : List (LogOp P) := []
  installed : List Nat := []

variable {P : Type} [DecidableEq P]

def LogState.begun (s : LogState P) : List (LogOp P) := s.live ++ s.ended

def LogState.Logged (s : LogState P) (x : Nat) : Prop := ∃ op ∈ s.begun, x ∈ op.sectors

def LogState.goto (s : LogState P) (p : P) (pc : LogPc) : LogState P :=
  { s with pc := Function.update s.pc p pc }

def LogState.wakeup (s : LogState P) : LogState P :=
  { s with pc := fun p => if s.pc p = .asleep then .begin else s.pc p }

def LogState.beginOp (s : LogState P) (p : P) : LogState P :=
  if s.committing then s.goto p .asleep
  else if s.lh.length + (s.outstanding + 1) * MAXOPBLOCKS > LOGSIZE then s.goto p .asleep
  else { s with outstanding := s.outstanding + 1, live := { owner := p } :: s.live }.goto p .inside

def LogOp.add (p : P) (x : Nat) (op : LogOp P) : LogOp P :=
  if op.owner = p ∧ x ∉ op.sectors then { op with sectors := x :: op.sectors } else op

/-- The locked part of log_write: absorb the sector or append it. -/
def LogState.append (s : LogState P) (p : P) (x : Nat) : Except Panic (LogState P) :=
  if x ∈ s.lh then .ok ({ s with live := s.live.map (LogOp.add p x) }.goto p .inside)
  else if s.lh.length < LOGSIZE then
    .ok ({ s with lh := s.lh ++ [x], live := s.live.map (LogOp.add p x) }.goto p .inside)
  else .error .logHeaderOverflow

def LogState.closeOp (s : LogState P) (p : P) : LogState P :=
  { s with
    outstanding := s.outstanding - 1
    live := s.live.filter (fun op => op.owner ≠ p)
    ended := s.live.filter (fun op => op.owner = p) ++ s.ended }

def LogState.endOp (s : LogState P) (p : P) : Except Panic (LogState P) :=
  if s.committing then .error .logCommitting
  else if s.outstanding - 1 = 0 then
    .ok ({ s.closeOp p with committing := true, installed := [] }.goto p .commit)
  else .ok ((s.closeOp p).wakeup.goto p .out)

/-- The steps of commit, and the second locked part of end_op. -/
def LogState.commitStep (s : LogState P) (p : P) : LogState P :=
  match s.pc p with
  | .commit => if 0 < s.lh.length then s.goto p (.writeLog 0) else s.goto p .finish
  | .writeLog tail => if tail < s.lh.length then s.goto p (.writeLog (tail + 1))
      else s.goto p .writeHead
  | .writeHead => s.goto p (.installTrans 0)
  | .installTrans tail =>
    match s.lh[tail]? with
    | some x => { s with installed := s.installed ++ [x] }.goto p (.installTrans (tail + 1))
    | none => s.goto p .clear
  | .clear => { s with lh := [] }.goto p .eraseHead
  | .eraseHead => s.goto p .finish
  | .finish => ({ s with committing := false, ended := [] }.goto p .out).wakeup
  | _ => s

inductive LogAct (P : Type) where
  | beginOp (p : P)
  | wake (p : P)          -- a sleeper that kill wakes up
  | logWrite (p : P) (sector : Nat)
  | testTrans (p : P)
  | append (p : P)
  | endOp (p : P)
  | commitStep (p : P)

def LogState.step (size : Nat) (s : LogState P) : LogAct P → Except Panic (LogState P)
  | .beginOp p => .ok (if s.pc p = .out ∨ s.pc p = .begin then s.beginOp p else s)
  | .wake p => .ok (if s.pc p = .asleep then s.goto p .begin else s)
  | .logWrite p x =>
    if s.pc p = .inside then
      if s.lh.length ≥ LOGSIZE ∨ s.lh.length + 1 ≥ size then .error .tooBigTransaction
      else .ok (s.goto p (.sized x))
    else .ok s
  | .testTrans p =>
    match s.pc p with
    | .sized x => if s.outstanding < 1 then .error .outsideTransaction
        else .ok (s.goto p (.tested x))
    | _ => .ok s
  | .append p =>
    match s.pc p with
    | .tested x => s.append p x
    | _ => .ok s
  | .endOp p => if s.pc p = .inside then s.endOp p else .ok s
  | .commitStep p => .ok (s.commitStep p)

/-- The states of all runs whose steps meet allowed, from the log initlog leaves. -/
def LogState.Reached (size : Nat) (allowed : LogState P → LogAct P → Prop) : LogState P → Prop :=
  Reaches (LogState.step size) allowed (· = {})

end MmapXv6
