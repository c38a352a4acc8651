import MmapXv6.Types

/-! The struct pipe of pipe.c and what its functions do with the buffer and the two
counters, which are uints and wrap around. -/
namespace MmapXv6

abbrev PIPESIZE : Nat := 512

structure Pipe where
  data : Nat → UInt8 := fun _ => 0
  nread : Nat := 0
  nwrite : Nat := 0
  readopen : Bool := true
  writeopen : Bool := true

namespace Pipe

def Full (p : Pipe) : Prop := p.nwrite = (p.nread + PIPESIZE) % 2 ^ 32

def Empty (p : Pipe) : Prop := p.nread = p.nwrite

instance (p : Pipe) : Decidable p.Full := inferInstanceAs (Decidable (_ = _))
instance (p : Pipe) : Decidable p.Empty := inferInstanceAs (Decidable (_ = _))

def store (p : Pipe) (b : UInt8) : Pipe :=
  { p with
    data := Function.update p.data (p.nwrite % PIPESIZE) b
    nwrite := (p.nwrite + 1) % 2 ^ 32 }

def next (p : Pipe) : UInt8 := p.data (p.nread % PIPESIZE)

def advance (p : Pipe) : Pipe := { p with nread := (p.nread + 1) % 2 ^ 32 }

def close (p : Pipe) (writable : Bool) : Pipe :=
  if writable then { p with writeopen := false } else { p with readopen := false }

end Pipe

end MmapXv6
