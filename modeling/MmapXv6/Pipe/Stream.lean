import MmapXv6.Pipe.System

/-! A pipe is a stream of bytes in order. The lock gives the pipe to one process at a
time, so what that process has tested still holds when it stores or takes a byte; the
bytes between the two counters are then the ones that are stored and not yet taken. -/
namespace MmapXv6

open Lib Function

variable {old pc : PipePc}

/-- The counters count the two streams modulo 2^32, which 512 divides. -/
structure Pipe.Carries (p : Pipe) (stored taken : List UInt8) : Prop where
  cyclic : Cyclic PIPESIZE p.data stored taken
  nwrite : p.nwrite = stored.length % 2 ^ 32
  nread : p.nread = taken.length % 2 ^ 32

section Carries
variable {p : Pipe} {stored taken : List UInt8}

theorem Pipe.Carries.full_iff (h : p.Carries stored taken) :
    p.Full ↔ stored.length = taken.length + PIPESIZE := by
  unfold Pipe.Full
  rw [h.nwrite, h.nread]
  exact counters_full h.cyclic.order.length_le h.cyclic.fits (by decide)

theorem Pipe.Carries.empty_iff (h : p.Carries stored taken) :
    p.Empty ↔ taken.length = stored.length := by
  have fits := h.cyclic.fits
  unfold Pipe.Empty
  rw [h.nwrite, h.nread]
  exact counters_eq h.cyclic.order.length_le (by unfold PIPESIZE at fits; omega)

theorem Pipe.Carries.distance (h : p.Carries stored taken) :
    (p.nwrite + (2 ^ 32 - p.nread)) % 2 ^ 32 ≤ PIPESIZE := by
  have fits := h.cyclic.fits
  rw [h.nwrite, h.nread, counters_distance h.cyclic.order.length_le
    (by unfold PIPESIZE at fits; omega)]
  omega

theorem mod_pipesize (k : Nat) : k % 2 ^ 32 % PIPESIZE = k % PIPESIZE :=
  Nat.mod_mod_of_dvd k (by decide)

theorem Pipe.Carries.store (h : p.Carries stored taken) (room : ¬ p.Full) (b : UInt8) :
    (p.store b).Carries (stored ++ [b]) taken := by
  have fits := h.cyclic.fits
  rw [h.full_iff] at room
  refine ⟨?_, ?_, h.nread⟩
  · unfold Pipe.store
    rw [h.nwrite, mod_pipesize]
    exact h.cyclic.push (by omega) b
  · simp only [Pipe.store, h.nwrite, List.length_append, List.length_singleton, Nat.mod_add_mod]

theorem Pipe.Carries.take (h : p.Carries stored taken) (some : ¬ p.Empty) :
    p.advance.Carries stored (taken ++ [p.next]) := by
  have order := h.cyclic.order.length_le
  rw [h.empty_iff] at some
  refine ⟨?_, h.nwrite, ?_⟩
  · unfold Pipe.next Pipe.advance
    rw [h.nread, mod_pipesize]
    exact h.cyclic.pop (by omega)
  · simp only [Pipe.advance, h.nread, List.length_append, List.length_singleton, Nat.mod_add_mod]

theorem Pipe.Carries.close (h : p.Carries stored taken) (writable : Bool) :
    (p.close writable).Carries stored taken := by
  unfold Pipe.close
  split
  · exact ⟨h.cyclic, h.nwrite, h.nread⟩
  · exact ⟨h.cyclic, h.nwrite, h.nread⟩

end Carries

def PipePc.Fact : PipePc → Pipe → Prop
  | .writeAcquire c, _ | .writeFor c, _ | .writeWhile c, _ => c.told ≤ c.i
  | .writeStore c, p => c.told ≤ c.i ∧ ¬ p.Full
  | .writeWake c, p | .writeSleep c, p => c.told ≤ c.i ∧ p.Full ∧ p.readopen = true
  | .readAcquire c, _ | .readWhile c, _ => c.got = []
  | .readSleep c, p => c.got = [] ∧ p.Empty ∧ p.writeopen = true
  | .readTake _, p => ¬ p.Empty
  | .out, _ | .readFor _, _ | .closeAcquire _, _ | .closeSet _, _ | .closeTest, _
  | .leave _, _ => True

def PipePc.hand : PipePc → List UInt8
  | .readFor c | .readTake c => c.got
  | _ => []

theorem PipePc.Fact.outside {p : Pipe} (h : pc.Fact p) (out : ¬ pc.Inside) (q : Pipe) :
    pc.Fact q := by
  cases pc with
  | out => trivial
  | writeAcquire c => exact h
  | readAcquire c => exact h
  | closeAcquire w => trivial
  | _ => exact absurd trivial out

structure PipeInv {P : Type} (s : PipeSys P) : Prop where
  inside : ∀ p, (s.pc p).Inside ↔ s.lock = some p
  fact : ∀ p, (s.pc p).Fact s.pipe
  carries : s.pipe.Carries s.stored s.taken
  returned : s.lock = none → s.taken = s.reads.flatten
  inHand : ∀ p, s.lock = some p → s.taken = s.reads.flatten ++ (s.pc p).hand

section Steps
variable {P : Type} {s t : PipeSys P} {p : P}

theorem PipeInv.alone (h : PipeInv s) (inside : (s.pc p).Inside) (q : P) (other : q ≠ p) :
    ¬ (s.pc q).Inside := by
  intro also
  have mine := (h.inside p).mp inside
  rw [(h.inside q).mp also] at mine
  exact other (Option.some.inj mine)

variable [DecidableEq P]

theorem PipeInv.stays (h : PipeInv s) (was : s.pc p = old)
    (moved : t.pc = update s.pc p pc) (lock : t.lock = s.lock) (had : old.Inside)
    (still : pc.Inside) (fact : pc.Fact t.pipe) (carries : t.pipe.Carries t.stored t.taken)
    (hand : t.taken = t.reads.flatten ++ pc.hand) : PipeInv t := by
  have inside : (s.pc p).Inside := by rw [was]; exact had
  have mine := (h.inside p).mp inside
  refine ⟨fun q => ?_, fun q => ?_, carries, fun free => ?_, fun q held => ?_⟩
  · rw [moved, lock]
    by_cases e : q = p
    · subst e; rw [update_self]; exact ⟨fun _ => mine, fun _ => still⟩
    · rw [update_of_ne e]; exact h.inside q
  · rw [moved]
    by_cases e : q = p
    · subst e; rw [update_self]; exact fact
    · rw [update_of_ne e]; exact (h.fact q).outside (h.alone inside q e) t.pipe
  · rw [lock, mine] at free; cases free
  · rw [lock, mine] at held
    cases held
    rw [moved, update_self]
    exact hand

theorem PipeInv.leaves (h : PipeInv s) (was : s.pc p = old) (had : old.Inside)
    (out : ¬ pc.Inside) (moved : t.pc = update s.pc p pc) (lock : t.lock = none)
      (pipe : t.pipe = s.pipe)
    (fact : pc.Fact s.pipe) (stored : t.stored = s.stored) (taken : t.taken = s.taken)
    (reads : t.reads = s.reads) (empty : old.hand = []) : PipeInv t := by
  have inside : (s.pc p).Inside := by rw [was]; exact had
  have mine := (h.inside p).mp inside
  refine ⟨fun q => ?_, fun q => ?_, by rw [pipe, stored, taken]; exact h.carries, fun _ => ?_,
    fun q held => ?_⟩
  · rw [moved, lock]
    by_cases e : q = p
    · subst e; rw [update_self]; exact ⟨fun i => absurd i out, fun l => by cases l⟩
    · rw [update_of_ne e]
      exact ⟨fun i => absurd i (h.alone inside q e), fun l => by cases l⟩
  · rw [moved, pipe]
    by_cases e : q = p
    · subst e; rw [update_self]; exact fact
    · rw [update_of_ne e]; exact h.fact q
  · rw [taken, reads, h.inHand p mine, was, empty, List.append_nil]
  · rw [lock] at held; cases held

theorem PipeInv.acquire (h : PipeInv s) (out : ¬ (s.pc p).Inside) (inside : pc.Inside)
    (fact : pc.Fact s.pipe) (empty : pc.hand = []) : PipeInv (s.acquire p pc) := by
  unfold PipeSys.acquire
  split
  · rename_i free
    have none : ∀ q, ¬ (s.pc q).Inside := fun q i => by
      have held := (h.inside q).mp i
      rw [free] at held
      cases held
    refine ⟨fun q => ?_, fun q => ?_, h.carries, (fun l => by cases l), fun q held => ?_⟩
    · by_cases e : q = p
      · subst e; simp [PipeSys.goto, inside]
      · simp [PipeSys.goto, e, none q, Ne.symm e]
    · by_cases e : q = p
      · subst e; simpa [PipeSys.goto] using fact
      · simpa [PipeSys.goto, e] using h.fact q
    · cases held
      simp [PipeSys.goto, empty, h.returned free]
  · exact h

theorem PipeInv.tests (h : PipeInv s) (was : s.pc p = old) (had : old.Inside)
    (still : pc.Inside) (fact : pc.Fact s.pipe) (hand : pc.hand = old.hand) :
    PipeInv (s.goto p pc) := by
  have mine := (h.inside p).mp (by rw [was]; exact had)
  refine h.stays was rfl rfl had still fact h.carries ?_
  rw [hand, ← was]
  exact h.inHand p mine

omit [DecidableEq P] in
theorem PipeInv.wakeup (h : PipeInv s) (chan : PipeChan) : PipeInv (s.wakeup chan) :=
  ⟨h.inside, h.fact, h.carries, h.returned, h.inHand⟩

theorem PipeInv.next (h : PipeInv s) (p : P) : PipeInv (s.next p (s.pc p)) := by
  have fact := h.fact p
  have hand : (s.pc p).Inside → s.taken = s.reads.flatten ++ (s.pc p).hand :=
    fun inside => h.inHand p ((h.inside p).mp inside)
  cases pc : s.pc p <;> rw [pc] at fact hand
  case out => exact h
  case writeAcquire c => exact h.acquire (by rw [pc]; exact id) trivial fact rfl
  case readAcquire c => exact h.acquire (by rw [pc]; exact id) trivial fact rfl
  case closeAcquire w => exact h.acquire (by rw [pc]; exact id) trivial trivial rfl
  case writeFor c =>
    simp only [PipeSys.next]
    split
    · exact h.tests pc trivial trivial fact rfl
    · exact (h.wakeup .nread).tests pc trivial trivial trivial rfl
  case writeWhile c =>
    simp only [PipeSys.next]
    split
    · rename_i full
      split
      · exact h.tests pc trivial trivial trivial rfl
      · rename_i going
        have opened : s.pipe.readopen = true := by simpa using fun shut => going (.inl shut)
        exact h.tests pc trivial trivial ⟨fact, full, opened⟩ rfl
    · rename_i room
      exact h.tests pc trivial trivial ⟨fact, room⟩ rfl
  case writeWake c =>
    exact (h.wakeup .nread).tests pc trivial trivial ⟨Nat.le_refl _, fact.2⟩ rfl
  case writeSleep c => exact h.leaves pc trivial id rfl rfl rfl fact.1 rfl rfl rfl rfl
  case writeStore c =>
    have later : c.told ≤ c.i + 1 := Nat.le_succ_of_le fact.1
    exact h.stays pc rfl rfl trivial trivial later (h.carries.store fact.2 _) (hand trivial)
  case readWhile c =>
    simp only [PipeSys.next]
    split
    · rename_i idle
      split
      · exact h.tests pc trivial trivial trivial rfl
      · exact h.tests pc trivial trivial ⟨fact, idle⟩ rfl
    · exact h.tests pc trivial trivial trivial fact
  case readSleep c => exact h.leaves pc trivial id rfl rfl rfl fact.1 rfl rfl rfl rfl
  case readFor c =>
    simp only [PipeSys.next]
    split
    · rename_i more
      exact h.tests pc trivial trivial more.2 rfl
    · refine h.stays pc rfl rfl trivial trivial trivial h.carries ?_
      simpa [PipeSys.endRead, PipePc.hand, PipeSys.goto, PipeSys.wakeup] using hand trivial
  case readTake c =>
    refine h.stays pc rfl rfl trivial trivial trivial (h.carries.take fact) ?_
    simp [PipeSys.next, PipeSys.take, PipeSys.goto, PipePc.hand, hand trivial]
  case closeSet w =>
    exact h.stays pc rfl rfl trivial trivial trivial (h.carries.close w) (hand trivial)
  case closeTest => exact h.leaves pc trivial id rfl rfl rfl trivial rfl rfl rfl rfl
  case leave r => exact h.leaves pc trivial id rfl rfl rfl trivial rfl rfl rfl rfl

theorem PipeInv.call (h : PipeInv s) (p : P) (out : ¬ pc.Inside) (fact : pc.Fact s.pipe) :
    PipeInv (s.call p pc) := by
  unfold PipeSys.call
  split
  · rename_i idle
    have free : s.lock ≠ some p := fun held => by
      have inside := (h.inside p).mpr held
      rw [idle] at inside
      exact inside
    refine ⟨fun q => ?_, fun q => ?_, h.carries, h.returned, fun q held => ?_⟩
    · by_cases e : q = p
      · subst e; simp [PipeSys.goto, out, free]
      · simpa [PipeSys.goto, e] using h.inside q
    · by_cases e : q = p
      · subst e; simpa [PipeSys.goto] using fact
      · simpa [PipeSys.goto, e] using h.fact q
    · have e : q ≠ p := by rintro rfl; exact free held
      simpa [PipeSys.goto, e] using h.inHand q held
  · exact h

theorem PipeInv.step (h : PipeInv s) (a : PipeAct P) (stepped : s.step a = .ok t) : PipeInv t := by
  unfold PipeSys.step at stepped
  split at stepped
  · cases stepped; exact h
  cases a with
  | pipewrite p addr n => cases stepped; exact h.call p id (Nat.le_refl _)
  | piperead p n => cases stepped; exact h.call p id rfl
  | pipeclose p w => cases stepped; exact h.call p id trivial
  | run p =>
    cases stepped
    unfold PipeSys.run
    split
    · exact h.next p
    · exact h
  | kill p => cases stepped; exact ⟨h.inside, h.fact, h.carries, h.returned, h.inHand⟩

omit [DecidableEq P] in
theorem PipeInv.initial (fresh : s.Initial) : PipeInv s := by
  obtain ⟨data, killed, rfl⟩ := fresh
  exact ⟨fun p => ⟨False.elim, fun l => by cases l⟩, fun _ => trivial,
    ⟨Cyclic.nil _ _, rfl, rfl⟩, fun _ => rfl, fun p l => by cases l⟩

/-- In every state of every run the bytes that piperead took are the first of those
that pipewrite stored, in the same order, and at most PIPESIZE are between the two. -/
theorem pipe_is_fifo (run : Reaches PipeSys.step (fun _ _ => True) PipeSys.Initial s) :
    (s.pipe.nwrite + (2 ^ 32 - s.pipe.nread)) % 2 ^ 32 ≤ PIPESIZE ∧ s.taken <+: s.stored ∧
      s.reads.flatten <+: s.taken ∧ (s.lock = none → s.reads.flatten = s.taken) := by
  have h : PipeInv s :=
    run.invariant PipeInv (fun _ => PipeInv.initial) (fun s a t h _ stepped => h.step a stepped)
  refine ⟨h.carries.distance, h.carries.cyclic.order, ?_, fun free => (h.returned free).symm⟩
  cases holder : s.lock with
  | none => rw [h.returned holder]
  | some p => rw [h.inHand p holder]; exact List.prefix_append _ _

end Steps

def oneByte : List (PipeAct Bool) :=
  [.pipewrite true (fun _ => 7) 1] ++ List.replicate 6 (.run true) ++
    [.piperead false 1] ++ List.replicate 6 (.run false)

/-- One byte is written and then read. -/
theorem one_byte_passes : ∃ s : PipeSys Bool,
    Reaches PipeSys.step (fun _ _ => True) PipeSys.Initial s ∧ s.taken = [7] ∧
      s.taken <+: s.stored := by
  have begin_ : Reaches (PipeSys.step (P := Bool)) (fun _ _ => True) PipeSys.Initial
      { pipe := { data := fun _ => 0 } } := .start ⟨_, _, rfl⟩
  obtain ⟨s, run, passed⟩ :=
    begin_.exists_of_follow oneByte (fun s => decide (s.taken = [7])) (by decide)
  exact ⟨s, run, of_decide_eq_true passed, (pipe_is_fifo run).2.1⟩

end MmapXv6
