import MmapXv6.Types
import MmapXv6.Lib.Run
import MmapXv6.Lib.Ring
import Mathlib.Data.Fintype.Card

/-! The buffer cache of bio.c and the memory disk of memide.c, for blocks of any type.
A node of the ring is a buffer or none, the head. -/
namespace MmapXv6

open Lib
open Function (update update_of_ne update_self)

abbrev BufId := Fin NBUF

abbrev Node := Option BufId

abbrev NODEV : Nat := 2 ^ 32 - 1

/-- A struct buf without its links; the flags B_BUSY, B_VALID and B_DIRTY. -/
structure Buf (D : Type) where
  busy : Bool := false
  valid : Bool := false
  dirty : Bool := false
  dev : Nat := 0
  sector : Nat := 0
  data : D

structure Bcache (D : Type) where
  buf : BufId → Buf D
  links : Links Node

variable {D : Type}

def Bcache.set (c : Bcache D) (b : BufId) (f : Buf D → Buf D) : Bcache D :=
  { c with buf := update c.buf b (f (c.buf b)) }

def Bcache.initOne (c : Bcache D) (b : BufId) : Bcache D :=
  { c.set b (fun x => { x with dev := NODEV }) with links := c.links.pushFront none (some b) }

def binit (data : BufId → D) : Bcache D :=
  (List.finRange NBUF).foldl Bcache.initOne
    { buf := fun b => { data := data b }, links := ⟨fun _ => none, fun _ => none⟩ }

/-- A loop along next or prev up to the head, left at the first buffer that passes. -/
def scan (f : Node → Node) (test : BufId → Bool) : Nat → Node → Except Panic (Option BufId)
  | 0, _ => .error .loops
  | _ + 1, none => .ok none
  | fuel + 1, some b => if test b then .ok (some b) else scan f test fuel (f (some b))

inductive BgetResult (D : Type) where
  | got (b : BufId) (c : Bcache D)
  | taken (b : BufId)

def Bcache.caches (c : Bcache D) (dev sector : Nat) (b : BufId) : Bool :=
  (c.buf b).dev = dev ∧ (c.buf b).sector = sector

def Bcache.recyclable (c : Bcache D) (b : BufId) : Bool := !(c.buf b).busy && !(c.buf b).dirty

def bgetRecycle (c : Bcache D) (dev sector : Nat) : Except Panic (BgetResult D) := do
  match ← scan c.links.prev c.recyclable (NBUF + 1) (c.links.prev none) with
  | some b =>
    .ok (.got b (c.set b (fun x =>
      { x with dev := dev, sector := sector, busy := true, valid := false, dirty := false })))
  | none => .error .noBuffers

/-- One pass of bget under bcache.lock: the buffer is B_BUSY for the caller, or it is
taken and the caller sleeps on it. -/
def bget (c : Bcache D) (dev sector : Nat) : Except Panic (BgetResult D) := do
  match ← scan c.links.next (c.caches dev sector) (NBUF + 1) (c.links.next none) with
  | some b =>
    if (c.buf b).busy then .ok (.taken b)
    else .ok (.got b (c.set b (fun x => { x with busy := true })))
  | none => bgetRecycle c dev sector

def iderw (disksize : Nat) (b : Buf D) (memdisk : Nat → D) : Except Panic (Buf D × (Nat → D)) :=
  if !b.busy then .error .iderwNotBusy
  else if b.valid && !b.dirty then .error .iderwNothingToDo
  else if b.dev ≠ 1 then .error .iderwWrongDisk
  else if b.sector ≥ disksize then .error .iderwOutOfRange
  else if b.dirty then .ok ({ b with dirty := false, valid := true },
    update memdisk b.sector b.data)
  else .ok ({ b with data := memdisk b.sector, valid := true }, memdisk)

def breadFill (disksize : Nat) (b : Buf D) (memdisk : Nat → D) : Except Panic (Buf D × (Nat → D)) :=
  if b.valid then .ok (b, memdisk) else iderw disksize b memdisk

def bwrite (disksize : Nat) (b : Buf D) (memdisk : Nat → D) : Except Panic (Buf D × (Nat → D)) :=
  if !b.busy then .error .bwriteNotBusy else iderw disksize { b with dirty := true } memdisk

def brelse (c : Bcache D) (b : BufId) : Except Panic (Bcache D) :=
  if !(c.buf b).busy then .error .brelseNotBusy
  else .ok { c.set b (fun x => { x with busy := false }) with
    links := (c.links.unlink (some b)).pushFront none (some b) }

section Basics
variable {c : Bcache D} {b : BufId}

@[simp] theorem set_self (f : Buf D → Buf D) : (c.set b f).buf b = f (c.buf b) :=
  update_self _ _ _

theorem set_ne {a : BufId} (f : Buf D → Buf D) (h : a ≠ b) : (c.set b f).buf a = c.buf a :=
  update_of_ne h _ _

theorem set_buf (f : Buf D → Buf D) (a : BufId) :
    (c.set b f).buf a = if a = b then f (c.buf a) else c.buf a := by
  by_cases e : a = b
  · subst e; simp
  · rw [if_neg e]; exact set_ne f e

theorem scan_path {f : Node → Node} {test : BufId → Bool} {a : Node} {order : List BufId}
    {fuel : Nat} (path : Path f a (order.map some) none) (enough : order.length < fuel) :
    scan f test fuel (f a) = .ok (order.find? test) := by
  induction order generalizing a fuel with
  | nil =>
    obtain ⟨n, rfl⟩ := Nat.exists_eq_succ_of_ne_zero (Nat.ne_of_gt enough)
    rw [show f a = none from path]
    rfl
  | cons b order ih =>
    obtain ⟨n, rfl⟩ := Nat.exists_eq_succ_of_ne_zero (Nat.ne_of_gt (Nat.zero_lt_of_lt enough))
    rw [path.1, scan, List.find?_cons]
    split
    · rename_i passed; rw [passed]
    · rename_i failed
      rw [Bool.eq_false_iff.mpr failed]
      exact ih path.2 (by simpa using enough)

end Basics

structure RingOf (l : Links Node) (order : List BufId) : Prop where
  ring : IsRing l none (order.map some)
  all : ∀ b, b ∈ order

section Ring
variable {l : Links Node} {order : List BufId}

theorem RingOf.nodup (h : RingOf l order) : order.Nodup :=
  (List.nodup_cons.mp h.ring.once).2.of_map some

theorem RingOf.length (h : RingOf l order) : order.length ≤ NBUF := by
  simpa using List.Nodup.length_le_card h.nodup

theorem RingOf.scan_next (h : RingOf l order) (test : BufId → Bool) :
    scan l.next test (NBUF + 1) (l.next none) = .ok (order.find? test) :=
  scan_path h.ring.forth (Nat.lt_succ_of_le h.length)

theorem RingOf.scan_prev (h : RingOf l order) (test : BufId → Bool) :
    scan l.prev test (NBUF + 1) (l.prev none) = .ok (order.reverse.find? test) := by
  refine scan_path ?_ (by simpa using Nat.lt_succ_of_le h.length)
  rw [List.map_reverse]
  exact h.ring.back

theorem RingOf.moveFront (h : RingOf l order) (b : BufId) :
    ∃ order', RingOf ((l.unlink (some b)).pushFront none (some b)) order' := by
  obtain ⟨front, back, rfl⟩ := List.append_of_mem (h.all b)
  have nodup := h.nodup
  have cut : IsRing (l.unlink (some b)) none ((front ++ back).map some) := by
    have ring := h.ring
    rw [List.map_append, List.map_cons] at ring
    rw [List.map_append]
    exact ring.unlink
  have fresh : some b ∉ (none : Node) :: (front ++ back).map some := by
    have out : b ∉ front ++ back := (List.nodup_middle.mp nodup |> List.nodup_cons.mp).1
    simpa using out
  refine ⟨b :: (front ++ back), cut.pushFront fresh, fun a => ?_⟩
  have := h.all a
  simp only [List.mem_append, List.mem_cons] at this ⊢
  tauto

end Ring

end MmapXv6
