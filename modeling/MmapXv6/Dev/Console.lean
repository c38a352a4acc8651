import MmapXv6.Lib.Cyclic
import MmapXv6.Lib.Run
import MmapXv6.Lib.Word
import MmapXv6.Types

/-! The line discipline of console.c: consoleintr stores, erases and commits what is typed,
and consoleread takes what is committed. The three indices are uints and wrap around. A step
is one character of consoleintr or one turn of the loop of consoleread, under input.lock. -/
namespace MmapXv6

open Lib (Bytes Cyclic Reaches update_eq)
open Function (update update_of_ne update_self)

/-- C('D'), which ends a read. -/
abbrev ctrlD : UInt8 := 4

abbrev lf : UInt8 := 10

/-- The local variables of a call of consoleread. The field id is of the proofs alone. -/
structure ConsoleRead where
  id : Nat
  n : Nat
  target : Nat

/-- The struct input and the calls of consoleread. Of the proofs alone are the bytes that were
committed, those of the line that is edited, the committed bytes that were taken, those of
them that were copied to a call, and what the calls returned. -/
structure Console (P : Type) where
  buf : Bytes := fun _ => 0
  r : Nat := 0
  w : Nat := 0
  e : Nat := 0
  call : P → Option ConsoleRead := fun _ => none
  killed : P → Bool := fun _ => false
  committed : List UInt8 := []
  line : List UInt8 := []
  taken : List UInt8 := []
  moved : List (Nat × UInt8) := []
  calls : Nat := 0
  result : Nat → Option (P × Int) := fun _ => none

namespace Console
variable {P : Type}

/-- x - y of two uints. -/
def distance (x y : Nat) : Nat := (x + (2 ^ 32 - y)) % 2 ^ 32

/-- input.e-- -/
def erase (s : Console P) : Console P :=
  { s with e := distance s.e 1, line := s.line.dropLast }

/-- The loop for C('U'), of at most e - w turns. -/
def killLine : Nat → Console P → Console P
  | 0, s => s
  | fuel + 1, s =>
    if s.e ≠ s.w ∧ s.buf (distance s.e 1 % INPUTBUF) ≠ lf then killLine fuel s.erase else s

def put (s : Console P) (c : UInt8) : Console P :=
  { s with
    buf := update s.buf (s.e % INPUTBUF) c
    e := (s.e + 1) % 2 ^ 32
    line := s.line ++ [c] }

/-- input.w = input.e; the wakeup makes sleeping calls test again. -/
def commit (s : Console P) : Console P :=
  { s with w := s.e, committed := s.committed ++ s.line, line := [] }

def consoleintr (s : Console P) (c : UInt8) : Console P :=
  if c = 16 then s -- C('P'): procdump
  else if c = 21 then s.killLine (distance s.e s.w) -- C('U')
  else if c = 8 ∨ c = 127 then if s.e ≠ s.w then s.erase else s
  else if c ≠ 0 ∧ distance s.e s.r < INPUTBUF then
    let c := if c = 13 then lf else c
    let s := s.put c
    if c = lf ∨ c = ctrlD ∨ s.e = (s.r + INPUTBUF) % 2 ^ 32 then s.commit else s
  else s

variable [DecidableEq P]

def finish (s : Console P) (p : P) (call : ConsoleRead) (v : Int) : Console P :=
  { s with call := update s.call p none, result := update s.result call.id (some (p, v)) }

/-- *dst++ = c; --n; -/
def copy (s : Console P) (p : P) (call : ConsoleRead) (c : UInt8) : Console P :=
  { s with
    call := update s.call p (some { call with n := call.n - 1 })
    moved := s.moved ++ [(call.id, c)] }

/-- input.r++ -/
def advance (s : Console P) (c : UInt8) : Console P :=
  { s with r := (s.r + 1) % 2 ^ 32, taken := s.taken ++ [c] }

/-- A call of consoleread up to its loop. With n ≤ 0 the loop does not run, and target - n is 0. -/
def enter (s : Console P) (p : P) (n : Int) : Console P :=
  { s with call := update s.call p (some ⟨s.calls, n.toNat, n.toNat⟩), calls := s.calls + 1 }

/-- One turn of the loop of consoleread, which sleeps if nothing is committed. -/
def consoleread (s : Console P) (p : P) (call : ConsoleRead) : Console P :=
  if call.n = 0 then s.finish p call (call.target - call.n)
  else if s.r = s.w then if s.killed p then s.finish p call (-1) else s
  else
    let c := s.buf (s.r % INPUTBUF)
    if c = ctrlD then
      -- input.r++ and input.r-- under one lock, if bytes were copied before
      if call.n < call.target then s.finish p call (call.target - call.n)
      else (s.advance c).finish p call (call.target - call.n)
    else
      let s := (s.advance c).copy p call c
      if c = lf then s.finish p call (call.target - (call.n - 1)) else s

end Console

inductive ConsoleAct (P : Type)
  | type (c : UInt8)
  | enter (p : P) (n : Int)
  | read (p : P)
  | kill (p : P)

/-- A process has one call under way at most. -/
def Console.step [DecidableEq P] (s : Console P) : ConsoleAct P → Except Unit (Console P)
  | .type c => .ok (s.consoleintr c)
  | .enter p n => if (s.call p).isSome then .error () else .ok (s.enter p n)
  | .read p =>
    match s.call p with
    | none => .error ()
    | some call => .ok (s.consoleread p call)
  | .kill p => .ok { s with killed := update s.killed p true }

/-- Characters are typed and calls are made and go on, and no process is killed. -/
def ConsoleAct.NoKill (a : ConsoleAct P) : Prop := ∀ p, a ≠ .kill p

instance : (a : ConsoleAct P) → Decidable a.NoKill
  | .kill p => isFalse fun h => h p rfl
  | .type _ | .enter _ _ | .read _ => isTrue nofun

def Console.unread (s : Console P) : List UInt8 :=
  (List.range (distance s.w s.r)).map fun i => s.buf ((s.r + i) % 2 ^ 32 % INPUTBUF)

def Console.got (s : Console P) (id : Nat) : Nat := s.moved.countP (·.1 = id)

structure Console.Holds (s : Console P) : Prop where
  cyclic : Cyclic INPUTBUF s.buf (s.committed ++ s.line) s.taken
  order : s.taken <+: s.committed
  r : s.r = s.taken.length % 2 ^ 32
  w : s.w = s.committed.length % 2 ^ 32
  e : s.e = (s.committed ++ s.line).length % 2 ^ 32

section Ring
variable {s : Console P}

namespace Console.Holds

theorem near (h : s.Holds) : s.taken.length ≤ s.committed.length ∧
    s.committed.length + s.line.length ≤ s.taken.length + 128 := by
  have fits := h.cyclic.fits
  rw [List.length_append] at fits
  exact ⟨h.order.length_le, fits⟩

theorem filled (h : s.Holds) :
    distance s.e s.r = s.committed.length + s.line.length - s.taken.length := by
  have := h.near
  rw [distance, h.e, h.r, List.length_append, Lib.counters_distance (by omega) (by omega)]

theorem waiting (h : s.Holds) : distance s.w s.r = s.committed.length - s.taken.length := by
  have := h.near
  rw [distance, h.w, h.r, Lib.counters_distance (by omega) (by omega)]

theorem empty (h : s.Holds) : s.r = s.w ↔ s.taken.length = s.committed.length := by
  have := h.near
  rw [h.w, h.r, Lib.counters_eq (by omega) (by omega)]

theorem edited (h : s.Holds) : s.e = s.w ↔ s.line = [] := by
  have := h.near
  rw [h.w, h.e, eq_comm, Lib.counters_eq (by simp) (by simp; omega)]
  simp

theorem unread (h : s.Holds) : s.unread = s.committed.drop s.taken.length := by
  have cells := (h.cyclic.shorten (List.prefix_append _ _) h.order).cells
  rw [Console.unread, h.waiting, ← cells]
  refine List.map_congr_left fun i _ => ?_
  rw [h.r, Nat.mod_add_mod, Nat.mod_mod_of_dvd _ (by decide)]

-- s is taken apart so that the decremented index is never compared with the old one
theorem erase (h : s.Holds) (more : s.line ≠ []) : s.erase.Holds := by
  obtain ⟨buf, r, w, e, call, killed, committed, line, taken, moved, calls, result⟩ := s
  have pos := List.length_pos_iff.mpr more
  have shorter : committed ++ line.dropLast <+: committed ++ line :=
    (List.prefix_append_right_inj _).mpr (List.dropLast_prefix _)
  have last := h.e
  refine ⟨h.cyclic.shorten shorter (h.order.trans (List.prefix_append _ _)), h.order, h.r, h.w, ?_⟩
  simp only [Console.erase, distance, List.length_append, List.length_dropLast] at last pos ⊢
  omega

theorem put (h : s.Holds) (room : distance s.e s.r < INPUTBUF) (c : UInt8) : (s.put c).Holds := by
  have near := h.near
  rw [h.filled] at room
  have push := h.cyclic.push (by rw [List.length_append]; omega) c
  refine ⟨?_, h.order, h.r, h.w, ?_⟩
  · rw [List.append_assoc] at push
    rw [← Nat.mod_mod_of_dvd _ (show INPUTBUF ∣ 2 ^ 32 by decide), ← h.e] at push
    exact push
  · simp [Console.put, h.e, Nat.mod_add_mod, Nat.add_assoc]

theorem commit (h : s.Holds) : s.commit.Holds := by
  refine ⟨?_, h.order.trans (List.prefix_append _ _), h.r, h.e, ?_⟩
  · simpa [Console.commit] using h.cyclic
  · simpa [Console.commit] using h.e

end Console.Holds

def Console.reads (s : Console P) : (P → Option ConsoleRead) × (P → Bool) × List UInt8 ×
    List (Nat × UInt8) × Nat × (Nat → Option (P × Int)) :=
  (s.call, s.killed, s.taken, s.moved, s.calls, s.result)

theorem Console.edit_keeps (s : Console P) (e : Nat) (line : List UInt8) :
    ({ s with e := e, line := line } : Console P).committed = s.committed ∧
      ({ s with e := e, line := line } : Console P).reads = s.reads := ⟨rfl, rfl⟩

theorem Console.erase_keeps (s : Console P) : s.erase.committed = s.committed ∧
    s.erase.reads = s.reads :=
  s.edit_keeps (distance s.e 1) _

theorem Console.Holds.killLine (h : s.Holds) (n : Nat) : (s.killLine n).Holds ∧
    (s.killLine n).committed = s.committed ∧ (s.killLine n).reads = s.reads := by
  induction n generalizing s with
  | zero => exact ⟨h, rfl, rfl⟩
  | succ n ih =>
    rw [Console.killLine]
    split
    · rename_i more
      obtain ⟨holds, committed, reads⟩ := ih (h.erase (mt h.edited.mpr more.1))
      exact ⟨holds, committed.trans s.erase_keeps.1, reads.trans s.erase_keeps.2⟩
    · exact ⟨h, rfl, rfl⟩

theorem Console.Holds.consoleintr (h : s.Holds) (c : UInt8) : (s.consoleintr c).Holds ∧
    s.committed <+: (s.consoleintr c).committed ∧ (s.consoleintr c).reads = s.reads := by
  have idle : s.Holds ∧ s.committed <+: s.committed ∧ s.reads = s.reads :=
    ⟨h, List.prefix_refl _, rfl⟩
  unfold Console.consoleintr
  split
  · exact idle
  · split
    · obtain ⟨holds, same, reads⟩ := h.killLine (distance s.e s.w)
      exact ⟨holds, by rw [same], reads⟩
    · split
      · split
        · rename_i some
          exact ⟨h.erase (mt h.edited.mpr some), by rw [s.erase_keeps.1], s.erase_keeps.2⟩
        · exact idle
      · split
        · rename_i room
          have put := h.put room.2 (if c = 13 then lf else c)
          generalize (if c = 13 then lf else c) = c' at put
          dsimp only
          split
          · exact ⟨put.commit, List.prefix_append _ _, rfl⟩
          · exact ⟨put, List.prefix_refl _, rfl⟩
        · exact idle

theorem Console.Holds.advance (h : s.Holds) (some : s.r ≠ s.w) :
    (s.advance (s.buf (s.r % INPUTBUF))).Holds ∧
      s.unread.head? = .some (s.buf (s.r % INPUTBUF)) := by
  have near := h.near
  rw [ne_eq, h.empty] at some
  have place : s.r % INPUTBUF = s.taken.length % INPUTBUF := by
    rw [h.r, Nat.mod_mod_of_dvd _ (by decide)]
  have pop := (h.cyclic.shorten (List.prefix_append _ _) h.order).pop (by omega)
  have pop' := h.cyclic.pop (by rw [List.length_append]; omega)
  rw [← place] at pop pop'
  refine ⟨⟨pop', pop.order, ?_, h.w, h.e⟩, ?_⟩
  · simp [Console.advance, h.r, Nat.mod_add_mod]
  · obtain ⟨rest, whole⟩ := pop.order
    rw [h.unread, ← whole]
    simp

end Ring

structure Console.Tallies (s : Console P) : Prop where
  moved : s.moved.map Prod.snd = s.taken.filter (· ≠ ctrlD)
  fresh : ∀ m ∈ s.moved, m.1 < s.calls
  active : ∀ p call, s.call p = some call →
    call.id < s.calls ∧ call.n + s.got call.id = call.target ∧ s.result call.id = none
  apart : ∀ p q a b, s.call p = some a → s.call q = some b → a.id = b.id → p = q
  ended : ∀ id p v, s.result id = some (p, v) → id < s.calls ∧ (v = s.got id ∨ v = -1 ∧ s.killed p)

section Calls
variable {s : Console P} {p : P} {call : ConsoleRead}

namespace Console.Tallies

theorem of_reads {t : Console P} (h : s.Tallies) (same : t.reads = s.reads) : t.Tallies := by
  simp only [reads, Prod.mk.injEq] at same
  obtain ⟨call, killed, taken, moved, calls, result⟩ := same
  exact ⟨by rw [moved, taken]; exact h.moved, by rw [moved, calls]; exact h.fresh,
    by simp only [call, calls, got, moved, result]; exact h.active, by rw [call]; exact h.apart,
    by simp only [result, calls, got, moved, killed]; exact h.ended⟩

theorem skip (h : s.Tallies) : (s.advance ctrlD).Tallies :=
  ⟨by simpa [advance] using h.moved, h.fresh, h.active, h.apart, h.ended⟩

variable [DecidableEq P]

theorem enter (h : s.Tallies) (p : P) (n : Int) : (s.enter p n).Tallies := by
  have unused : s.got s.calls = 0 := by
    refine List.countP_eq_zero.mpr fun m mem => ?_
    have := h.fresh m mem
    simp
    omega
  have idle : s.result s.calls = none := by
    cases found : s.result s.calls with
    | none => rfl
    | some r => exact absurd (h.ended _ r.1 r.2 found).1 (Nat.lt_irrefl _)
  refine ⟨h.moved, fun m mem => (h.fresh m mem).trans (Nat.lt_succ_self _), ?_, ?_, ?_⟩
  · intro q call called
    rcases update_eq.mp called with ⟨rfl, ⟨⟩⟩ | ⟨-, earlier⟩
    · exact ⟨Nat.lt_succ_self _, congrArg (n.toNat + ·) unused, idle⟩
    · obtain ⟨known, count⟩ := h.active q call earlier
      exact ⟨known.trans (Nat.lt_succ_self _), count⟩
  · intro q r a b ha hb same
    rcases update_eq.mp ha with ⟨rfl, ⟨⟩⟩ | ⟨-, old⟩ <;> rcases update_eq.mp hb with ⟨rfl, ⟨⟩⟩
      | ⟨-, old'⟩
    · rfl
    · exact absurd (h.active _ _ old').1 (same ▸ Nat.lt_irrefl _)
    · exact absurd (h.active _ _ old).1 (same ▸ Nat.lt_irrefl _)
    · exact h.apart _ _ _ _ old old' same
  · intro id q v ended
    obtain ⟨known, value⟩ := h.ended id q v ended
    exact ⟨known.trans (Nat.lt_succ_self _), value⟩

theorem finish (h : s.Tallies) (called : s.call p = some call) {v : Int}
    (value : v = s.got call.id ∨ v = -1 ∧ s.killed p) : (s.finish p call v).Tallies := by
  refine ⟨h.moved, h.fresh, ?_, ?_, ?_⟩
  · intro q other found
    rcases update_eq.mp found with ⟨-, ⟨⟩⟩ | ⟨differ, found⟩
    obtain ⟨known, count, pending⟩ := h.active q other found
    refine ⟨known, count, (update_of_ne (fun same => ?_) _ _).trans pending⟩
    exact differ (h.apart _ _ _ _ found called same)
  · intro q r a b ha hb
    rcases update_eq.mp ha with ⟨-, ⟨⟩⟩ | ⟨-, ha⟩
    rcases update_eq.mp hb with ⟨-, ⟨⟩⟩ | ⟨-, hb⟩
    exact h.apart q r a b ha hb
  · intro id q w found
    rcases update_eq.mp found with ⟨rfl, ⟨⟩⟩ | ⟨-, found⟩
    · exact ⟨(h.active p call called).1, value⟩
    · exact h.ended id q w found

theorem copy (h : s.Tallies) (called : s.call p = some call) (more : call.n ≠ 0) {c : UInt8}
    (byte : c ≠ ctrlD) : ((s.advance c).copy p call c).Tallies := by
  have mine := h.active p call called
  have count (id : Nat) : ((s.advance c).copy p call c).got id = s.got id + if call.id = id then 1
      else 0 := by
    simp [Console.got, Console.copy, Console.advance]
  refine ⟨by simp [Console.copy, Console.advance, h.moved, byte], ?_, ?_, ?_, ?_⟩
  · intro m mem
    rcases List.mem_append.mp mem with old | new
    · exact h.fresh m old
    · simp only [List.mem_singleton] at new
      exact new ▸ mine.1
  · intro q other found
    rcases update_eq.mp found with ⟨rfl, ⟨⟩⟩ | ⟨differ, found⟩
    · refine ⟨mine.1, ?_, mine.2.2⟩
      rw [count, if_pos rfl]
      simp only
      omega
    · have theirs := h.active q other found
      refine ⟨theirs.1, ?_, theirs.2.2⟩
      rw [count, if_neg fun same => differ (h.apart _ _ _ _ called found same).symm]
      exact theirs.2.1
  · intro q r a b ha hb same
    rcases update_eq.mp ha with ⟨rfl, ⟨⟩⟩ | ⟨-, old⟩ <;> rcases update_eq.mp hb with ⟨rfl, ⟨⟩⟩
      | ⟨-, old'⟩
    · rfl
    · exact h.apart _ _ _ _ called old' same
    · exact h.apart _ _ _ _ old called same
    · exact h.apart _ _ _ _ old old' same
  · intro id q v found
    obtain ⟨known, value⟩ := h.ended id q v found
    refine ⟨known, value.imp_left fun value => ?_⟩
    rw [count, if_neg, value]
    · rfl
    · rintro rfl
      cases mine.2.2.symm.trans found

end Console.Tallies

structure Console.Ok (s : Console P) : Prop where
  holds : s.Holds
  tallies : s.Tallies

theorem Console.Holds.next (h : s.Holds) {c : UInt8} (next : s.unread.head? = some c) :
    s.r ≠ s.w ∧ s.buf (s.r % INPUTBUF) = c ∧ (s.advance c).unread = s.unread.tail := by
  have some : s.r ≠ s.w := by
    intro same
    rw [h.unread, h.empty.mp same] at next
    simp at next
  obtain ⟨holds, head⟩ := h.advance some
  cases head.symm.trans next
  refine ⟨some, rfl, ?_⟩
  rw [holds.unread, h.unread, List.tail_drop]
  simp [Console.advance]

variable [DecidableEq P]

theorem Console.Ok.eof (h : s.Ok) (called : s.call p = some call) (more : call.n ≠ 0)
    (next : s.unread.head? = some ctrlD) :
    (s.consoleread p call).result call.id = some (p, (s.got call.id : Int)) ∧
      (s.consoleread p call).unread = if s.got call.id = 0 then s.unread.tail else s.unread := by
  have count := (h.tallies.active p call called).2.1
  obtain ⟨some, eof, tail⟩ := h.holds.next next
  rw [Console.consoleread, if_neg more, if_neg some]
  rw [if_pos eof, eof]
  split
  · exact ⟨(update_self _ _ _).trans (by congr; omega), by rw [if_neg (by omega)]; rfl⟩
  · exact ⟨(update_self _ _ _).trans (by congr; omega), by rw [if_pos (by omega)]; exact tail⟩

theorem Console.Ok.byte (h : s.Ok) (more : call.n ≠ 0) {c : UInt8} (next : s.unread.head? = some c)
    (byte : c ≠ ctrlD) : (s.consoleread p call).unread = s.unread.tail ∧
      (s.consoleread p call).moved = s.moved ++ [(call.id, c)] := by
  obtain ⟨some, rfl, tail⟩ := h.holds.next next
  rw [Console.consoleread, if_neg more, if_neg some]
  rw [if_neg byte]
  split
  · exact ⟨tail, rfl⟩
  · exact ⟨tail, rfl⟩

theorem Console.Ok.consoleread (h : s.Ok) (called : s.call p = some call) :
    (s.consoleread p call).Ok := by
  have count := (h.tallies.active p call called).2.1
  unfold Console.consoleread
  split
  · exact ⟨⟨h.holds.cyclic, h.holds.order, h.holds.r, h.holds.w, h.holds.e⟩,
      h.tallies.finish called (.inl (by omega))⟩
  · rename_i more
    split
    · split
      · rename_i killed
        exact ⟨⟨h.holds.cyclic, h.holds.order, h.holds.r, h.holds.w, h.holds.e⟩,
          h.tallies.finish called (.inr ⟨rfl, killed⟩)⟩
      · exact h
    · rename_i some
      obtain ⟨holds, -⟩ := h.holds.advance some
      dsimp only
      generalize s.buf (s.r % INPUTBUF) = c at holds ⊢
      split
      · rename_i eof
        split
        · exact ⟨⟨h.holds.cyclic, h.holds.order, h.holds.r, h.holds.w, h.holds.e⟩,
            h.tallies.finish called (.inl (by omega))⟩
        · subst eof
          exact ⟨⟨holds.cyclic, holds.order, holds.r, holds.w, holds.e⟩,
            h.tallies.skip.finish called (.inl (show _ = ((s.got call.id : Nat) : Int) by omega))⟩
      · rename_i byte
        have copied := h.tallies.copy called more byte
        have bytes : ((s.advance c).copy p call c).Holds :=
          ⟨holds.cyclic, holds.order, holds.r, holds.w, holds.e⟩
        split
        · have mine : ((s.advance c).copy p call c).call p = .some { call with n := call.n - 1 } :=
            update_self _ _ _
          have count := (copied.active p _ mine).2.1
          exact ⟨⟨bytes.cyclic, bytes.order, bytes.r, bytes.w, bytes.e⟩,
            copied.finish mine (.inl (by simp only at count ⊢; omega))⟩
        · exact ⟨bytes, copied⟩

theorem Console.Ok.step (h : s.Ok) {a : ConsoleAct P} {t : Console P} (done : s.step a = .ok t) :
    t.Ok := by
  cases a with
  | type c =>
    cases Except.ok.inj done
    obtain ⟨holds, -, reads⟩ := h.holds.consoleintr c
    exact ⟨holds, h.tallies.of_reads reads⟩
  | enter p n =>
    simp only [Console.step] at done
    split at done
    · cases done
    · cases Except.ok.inj done
      exact ⟨⟨h.holds.cyclic, h.holds.order, h.holds.r, h.holds.w, h.holds.e⟩, h.tallies.enter p n⟩
  | read p =>
    simp only [Console.step] at done
    split at done
    · cases done
    · rename_i call called
      cases Except.ok.inj done
      exact h.consoleread called
  | kill p =>
    cases Except.ok.inj done
    refine ⟨⟨h.holds.cyclic, h.holds.order, h.holds.r, h.holds.w, h.holds.e⟩,
      h.tallies.moved, h.tallies.fresh, h.tallies.active, h.tallies.apart, fun id q v found => ?_⟩
    obtain ⟨known, value⟩ := h.tallies.ended id q v found
    refine ⟨known, value.imp_right fun killed => ⟨killed.1, ?_⟩⟩
    rcases eq_or_ne q p with rfl | other
    · exact update_self _ _ _
    · exact (update_of_ne other _ _).trans killed.2

theorem Console.consoleread_killed : (s.consoleread p call).killed = s.killed := by
  simp only [Console.consoleread]
  repeat' split
  all_goals rfl

theorem Console.step_killed {a : ConsoleAct P} {t : Console P} (h : s.Ok) (spared : a.NoKill)
    (done : s.step a = .ok t) : t.killed = s.killed := by
  cases a with
  | type c =>
    cases Except.ok.inj done
    exact congrArg (·.2.1) (h.holds.consoleintr c).2.2
  | enter p n =>
    simp only [Console.step] at done
    split at done
    · cases done
    · cases Except.ok.inj done
      rfl
  | read p =>
    simp only [Console.step] at done
    split at done
    · cases done
    · cases Except.ok.inj done
      exact consoleread_killed
  | kill p => exact absurd rfl (spared p)

theorem Console.Ok.of_reaches (run : Reaches Console.step (fun _ a => a.NoKill)
    (fun s : Console P => s = {}) s) : s.Ok ∧ ∀ p, s.killed p = false := by
  refine run.invariant (fun s => s.Ok ∧ ∀ p, s.killed p = false) ?_ fun s a t h spared done => ?_
  · rintro s rfl
    exact ⟨⟨⟨Cyclic.nil _ _, List.prefix_refl _, rfl, rfl, rfl⟩, rfl, by simp, by simp, by simp,
      by simp⟩, fun _ => rfl⟩
  · exact ⟨h.1.step done, by rw [step_killed h.1 spared done]; exact h.2⟩

end Calls

/-- The indices are in order, what is committed is kept and read once and in order, a call returns
the number of bytes it was given, and C('D') ends a call. -/
theorem console_line_discipline [DecidableEq P] (s : Console P)
    (run : Reaches Console.step (fun _ a => a.NoKill) (fun s : Console P => s = {}) s) :
    (Console.distance s.w s.r ≤ Console.distance s.e s.r ∧ Console.distance s.e s.r ≤ INPUTBUF) ∧
      (∀ c, s.unread <+: (s.consoleintr c).unread ∧ s.committed <+: (s.consoleintr c).committed) ∧
      (s.committed = s.taken ++ s.unread ∧ s.moved.map Prod.snd = s.taken.filter (· ≠ ctrlD)) ∧
      (∀ id p v, s.result id = some (p, v) → v = s.got id) ∧
      ∀ p call c, s.call p = some call → call.n ≠ 0 → s.unread.head? = some c →
        if c = ctrlD then
          (s.consoleread p call).result call.id = some (p, (s.got call.id : Int)) ∧
            (s.consoleread p call).unread = if s.got call.id = 0 then s.unread.tail else s.unread
        else
          (s.consoleread p call).unread = s.unread.tail ∧
            (s.consoleread p call).moved = s.moved ++ [(call.id, c)] := by
  obtain ⟨ok, spared⟩ := Console.Ok.of_reaches run
  have near := ok.holds.near
  refine ⟨?_, fun c => ?_, ⟨?_, ok.tallies.moved⟩, fun id p v found => ?_,
    fun p call c called more next => ?_⟩
  · rw [ok.holds.waiting, ok.holds.filled]
    simp only [INPUTBUF]
    omega
  · obtain ⟨holds, more, reads⟩ := ok.holds.consoleintr c
    have taken : (s.consoleintr c).taken = s.taken := congrArg (·.2.2.1) reads
    rw [holds.unread, ok.holds.unread, taken]
    exact ⟨more.drop _, more⟩
  · obtain ⟨rest, whole⟩ := ok.holds.order
    rw [ok.holds.unread, ← whole, List.drop_left]
  · exact (ok.tallies.ended id p v found).2.resolve_right fun killed => by simp [spared] at killed
  · split
    · rename_i eof
      exact ok.eof called more (eof ▸ next)
    · rename_i byte
      exact ok.byte more next byte

/-- A line and an end of file are typed, and a call finds them one after the other. -/
theorem console_reads_a_line : ∃ s : Console Unit,
    Reaches Console.step (fun _ a => a.NoKill) (fun s : Console Unit => s = {}) s ∧
      s.moved = [(0, 97), (0, 10)] ∧ s.result 0 = some ((), 2) ∧ s.result 1 = some ((), 0) ∧
      s.committed = s.taken ++ s.unread := by
  have start : Reaches Console.step (fun _ a => a.NoKill) (fun s : Console Unit => s = {}) {} :=
    .start rfl
  obtain ⟨s, run, test⟩ := start.exists_of_follow
    [.type 97, .type 98, .type 8, .type 13, .type ctrlD, .enter () 9, .read (), .read (),
      .enter () 9, .read ()]
    (fun s => s.moved = [(0, 97), (0, 10)] ∧ s.result 0 = some ((), 2) ∧ s.result 1 = some ((), 0))
    (by decide +kernel)
  obtain ⟨moved, first, second⟩ := of_decide_eq_true test
  exact ⟨s, run, moved, first, second, (console_line_discipline s run).2.2.1.1⟩

end MmapXv6
