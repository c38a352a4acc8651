import MmapXv6.Types
import MmapXv6.Lib.Run
import MmapXv6.Lib.Word
import MmapXv6.Lib.Writes

/-! The disk side of log.c: write_log, write_head, install_trans, read_head, commit
and recover_from_log, with the sequence of block writes each of them issues. A
block is its bytes from offset 0 on, of which BSIZE count. -/
namespace MmapXv6

open Lib

abbrev Block := Bytes
abbrev Disk := Nat → Block

structure LogArea where
  start : Nat
  size : Nat

def LogArea.Inside (L : LogArea) (s : Nat) : Prop := L.start ≤ s ∧ s < L.start + L.size

/-- The disk, what bread returns for each sector, and the writes issued so far. The
two maps differ at the sectors whose new contents are still only in the cache. -/
structure BlockIo where
  disk : Disk
  view : Disk
  writes : List (Nat × Block) := []

def BlockIo.bread (io : BlockIo) (s : Nat) : Block := io.view s

def BlockIo.bwrite (io : BlockIo) (s : Nat) (b : Block) : BlockIo where
  disk := Function.update io.disk s b
  view := Function.update io.view s b
  writes := io.writes ++ [(s, b)]

def BlockIo.cold (d : Disk) : BlockIo := { disk := d, view := d }

abbrev LogHeader := List Nat

def writeLogFrom (L : LogArea) : Nat → LogHeader → BlockIo → BlockIo
  | _, [], io => io
  | tail, s :: rest, io =>
    writeLogFrom L (tail + 1) rest (io.bwrite (L.start + tail + 1) (io.bread s))

def writeLog (L : LogArea) (lh : LogHeader) (io : BlockIo) : BlockIo := writeLogFrom L 0 lh io

def installFrom (L : LogArea) : Nat → LogHeader → BlockIo → BlockIo
  | _, [], io => io
  | tail, s :: rest, io =>
    installFrom L (tail + 1) rest (io.bwrite s (io.bread (L.start + tail + 1)))

def installTrans (L : LogArea) (lh : LogHeader) (io : BlockIo) : BlockIo := installFrom L 0 lh io

def setSectors (b : Block) : Nat → LogHeader → Block
  | _, [] => b
  | i, s :: rest => setSectors (setWord b (4 + 4 * i) s) (i + 1) rest

/-- The header block: the count, then the sectors; the words behind them stay. -/
def headBlock (old : Block) (lh : LogHeader) : Block := setSectors (setWord old 0 lh.length) 0 lh

def writeHead (L : LogArea) (lh : LogHeader) (io : BlockIo) : BlockIo :=
  io.bwrite L.start (headBlock (io.bread L.start) lh)

def headCount (b : Block) : Int := toInt (word b 0)

/-- Read the log header. A count above LOGSIZE runs past both sector arrays. -/
def readHead (L : LogArea) (io : BlockIo) : Except Panic LogHeader :=
  if headCount (io.bread L.start) > LOGSIZE then .error .logHeaderOverflow
  else .ok ((List.range (headCount (io.bread L.start)).toNat).map
    (fun i => word (io.bread L.start) (4 + 4 * i)))

def commit (L : LogArea) (lh : LogHeader) (io : BlockIo) : BlockIo :=
  if 0 < lh.length then writeHead L [] (installTrans L lh (writeHead L lh (writeLog L lh io)))
  else io

def recoverFromLog (L : LogArea) (io : BlockIo) : Except Panic BlockIo := do
  let lh ← readHead L io
  return writeHead L [] (installTrans L lh io)

/-- The disk after a power cut that let only k block writes of a commit through. -/
def cutCommit (L : LogArea) (lh : LogHeader) (d view : Disk) (k : Nat) : Disk :=
  applyWrites d ((commit L lh { disk := d, view := view }).writes.take k)

def cutRecovery (L : LogArea) (d : Disk) (k : Nat) : Except Panic Disk := do
  let io ← recoverFromLog L (.cold d)
  return applyWrites d (io.writes.take k)

/-- Boots that are cut after ks.1, ks.2, ... writes, and then one that completes. -/
def reboots (L : LogArea) (d : Disk) (ks : List Nat) : Except Panic Disk := do
  let cut ← ks.foldlM (cutRecovery L) d
  let io ← recoverFromLog L (.cold cut)
  return io.disk

/-- What a committing process finds in log.lh: distinct sectors outside the log area,
at most LOGSIZE of them and few enough for the area. -/
structure Transaction (L : LogArea) (lh : LogHeader) : Prop where
  distinct : lh.Nodup
  fits : lh.length ≤ LOGSIZE
  room : lh.length ≤ L.size - 1
  outside : ∀ s ∈ lh, ¬ L.Inside s
  uint : ∀ s ∈ lh, s < 2 ^ 32
  nonempty : 1 ≤ lh.length

/-- The disks that a running system commits to: initlog has recovered them, and since
then only commits have written. -/
inductive Booted (L : LogArea) : Disk → Prop where
  | recovered {d e : Disk} {ks : List Nat} : reboots L d ks = .ok e → Booted L e
  | committed {d view : Disk} {lh : LogHeader} : Booted L d → Transaction L lh →
      Booted L (commit L lh { disk := d, view := view }).disk

end MmapXv6
