import MmapXv6.Bio.Cache

/-! Processes on the buffer cache. A pass of bget and the body of brelse run under
bcache.lock and are one step each; what a process does to a buffer it holds B_BUSY
touches nothing else. A commit is such a process too: write_log, write_head and
install_trans are made of bread, stores, bwrite and brelse. -/
namespace MmapXv6

open Lib
open Function (update)

inductive BioPc where
  | idle
  | looking (dev sector : Nat)                -- in bget, about to take bcache.lock
  | asleep (b : BufId) (dev sector : Nat)     -- in bget, asleep on b
  | filling (b : BufId) (dev sector : Nat)    -- in bread, past bget
  deriving DecidableEq, Repr

/-- The cache, the disk, the program counters and the buffers each process holds, with
two pieces of history: which buffers were stored to after the last log_write or bwrite
on them, and the data last stored for each sector, at first that of the disk. -/
structure BioState (P D : Type) where
  cache : Bcache D
  memdisk : Nat → D
  pc : P → BioPc := fun _ => .idle
  held : P → BufId → Bool := fun _ _ => false
  unsaved : BufId → Bool := fun _ => false
  last : Nat → D

variable {P D : Type} [DecidableEq P]

def BioState.buf (s : BioState P D) (b : BufId) : Buf D := s.cache.buf b

def BioState.goto (s : BioState P D) (p : P) (pc : BioPc) : BioState P D :=
  { s with pc := update s.pc p pc }

def BioState.setHeld (s : BioState P D) (p : P) (b : BufId) (v : Bool) : BioState P D :=
  { s with held := update s.held p (update (s.held p) b v) }

def BioState.wakeup (s : BioState P D) (b : BufId) : BioState P D :=
  { s with pc := fun p => match s.pc p with
      | .asleep a dev sector => if a = b then .looking dev sector else .asleep a dev sector
      | pc => pc }

def BioState.Holds (s : BioState P D) (p : P) (b : BufId) : Prop :=
  s.pc p = .idle ∧ s.held p b = true

instance (s : BioState P D) (p : P) (b : BufId) : Decidable (s.Holds p b) :=
    inferInstanceAs (Decidable (_ ∧ _))

inductive BioAct (P D : Type) where
  | bread (p : P) (dev sector : Nat)
  | scan (p : P)
  | wake (p : P)                        -- a sleeper that kill wakes up
  | fill (p : P)
  | store (p : P) (b : BufId) (d : D)
  | logWrite (p : P) (b : BufId)
  | bwrite (p : P) (b : BufId)
  | brelse (p : P) (b : BufId)

def BioState.scan (s : BioState P D) (p : P) (dev sector : Nat) : Except Panic (BioState P D) := do
  match ← bget s.cache dev sector with
  | .got b c => .ok (({ s with cache := c }.setHeld p b true).goto p (.filling b dev sector))
  | .taken b => .ok (s.goto p (.asleep b dev sector))

def BioState.fill (disksize : Nat) (s : BioState P D) (p : P) (b : BufId) :
    Except Panic (BioState P D) := do
  let r ← breadFill disksize (s.buf b) s.memdisk
  return { s with cache := s.cache.set b (fun _ => r.1), memdisk := r.2 }.goto p .idle

def BioState.store (s : BioState P D) (b : BufId) (d : D) : BioState P D :=
  { s with
    cache := s.cache.set b (fun x => { x with data := d })
    unsaved := update s.unsaved b true
    last := update s.last (s.buf b).sector d }

/-- What log_write does to the buffer: it pins it with B_DIRTY. -/
def BioState.logWrite (s : BioState P D) (b : BufId) : BioState P D :=
  { s with
    cache := s.cache.set b (fun x => { x with dirty := true })
    unsaved := update s.unsaved b false }

def BioState.bwrite (disksize : Nat) (s : BioState P D) (b : BufId) :
    Except Panic (BioState P D) := do
  let r ← MmapXv6.bwrite disksize (s.buf b) s.memdisk
  return { s with
    cache := s.cache.set b (fun _ => r.1), memdisk := r.2
    unsaved := update s.unsaved b false }

def BioState.brelse (s : BioState P D) (p : P) (b : BufId) : Except Panic (BioState P D) := do
  let c ← MmapXv6.brelse s.cache b
  return ({ s with cache := c }.setHeld p b false).wakeup b

def BioState.step (disksize : Nat) (s : BioState P D) : BioAct P D → Except Panic (BioState P D)
  | .bread p dev sector => .ok (if s.pc p = .idle then s.goto p (.looking dev sector) else s)
  | .scan p =>
    match s.pc p with
    | .looking dev sector => s.scan p dev sector
    | _ => .ok s
  | .wake p =>
    match s.pc p with
    | .asleep _ dev sector => .ok (s.goto p (.looking dev sector))
    | _ => .ok s
  | .fill p =>
    match s.pc p with
    | .filling b _ _ => s.fill disksize p b
    | _ => .ok s
  | .store p b d => .ok (if s.Holds p b then s.store b d else s)
  | .logWrite p b => .ok (if s.Holds p b then s.logWrite b else s)
  | .bwrite p b => if s.Holds p b then s.bwrite disksize b else .ok s
  | .brelse p b => if s.Holds p b then s.brelse p b else .ok s

/-- A process that has overwritten a buffer calls log_write or bwrite before brelse. -/
def SavesFirst (s : BioState P D) : BioAct P D → Prop
  | .brelse _ b => s.unsaved b = false
  | _ => True

instance (s : BioState P D) : (a : BioAct P D) → Decidable (SavesFirst s a)
  | .brelse _ _ => inferInstanceAs (Decidable (_ = _))
  | .bread _ _ _ | .scan _ | .wake _ | .fill _ | .store _ _ _ | .logWrite _ _ | .bwrite _ _ =>
    isTrue trivial

def BioState.initial (disk : Nat → D) (data : BufId → D) : BioState P D :=
  { cache := binit data, memdisk := disk, last := disk }

def BioState.Reached (disksize : Nat) (disk : Nat → D) : BioState P D → Prop :=
  Reaches (BioState.step disksize) SavesFirst (fun s => ∃ data, s = .initial disk data)

end MmapXv6
