import MmapXv6.Pipe.Stream

/-! Wake-ups of a pipe. A process that changes what another one sleeps for owes a call
of wakeup until it has made it, and it makes it before it releases the lock; only a
writer that gives up at a full pipe may leave with its stored bytes unannounced. -/
namespace MmapXv6

open Lib
open Function (update update_of_ne update_self)

variable {c : WriteCall} {chan : PipeChan} {old pc : PipePc}

def Pipe.Idle (p : Pipe) : PipeChan → Prop
  | .nread => p.Empty ∧ p.writeopen = true
  | .nwrite => p.Full ∧ p.readopen = true

def PipePc.Waits : PipePc → PipeChan → Prop
  | .readAcquire _, .nread | .writeAcquire _, .nwrite => True
  | _, _ => False

def PipePc.Owes : PipePc → PipeChan → Prop
  | .writeFor c, .nread | .writeWhile c, .nread | .writeStore c, .nread => c.told < c.i
  | .writeWake _, .nread => True
  | .readFor c, .nwrite | .readTake c, .nwrite => c.got ≠ []
  | _, _ => False

def PipePc.Reading : PipePc → Prop
  | .readAcquire _ | .readWhile _ | .readSleep _ | .readFor _ | .readTake _ => True
  | _ => False

structure Woken {P : Type} (s : PipeSys P) : Prop where
  waits : ∀ q chan, s.asleep q = some chan → (s.pc q).Waits chan
  idle : ∀ q chan, s.asleep q = some chan →
    s.pipe.Idle chan ∨ ∃ p, s.lock = some p ∧ (s.pc p).Owes chan

/-- A writer that finds the pipe full and gives up has stored nothing since it last woke
the readers, or there is no reader. -/
def Announced {P : Type} (s : PipeSys P) : PipeAct P → Prop
  | .run p => ∀ c, s.pc p = .writeWhile c → s.pipe.Full → s.pipe.readopen = false ∨
      s.killed p = true → c.i ≤ c.told ∨ ∀ q, ¬ (s.pc q).Reading
  | _ => True

theorem waits_outside (h : pc.Waits chan) : ¬ pc.Inside := by
  cases pc <;> cases chan <;> first | exact id | exact h.elim

theorem waits_reading (h : pc.Waits .nread) : pc.Reading := by
  cases pc <;> first | exact trivial | exact h.elim

section Steps
variable {P : Type} {s t : PipeSys P} {p : P}

theorem Woken.awake_of_inside (h : Woken s) (inside : (s.pc p).Inside) : s.asleep p = none := by
  cases e : s.asleep p with
  | none => rfl
  | some chan => exact absurd inside (waits_outside (h.waits p chan e))

theorem Woken.owed (h : Woken s) (inv : PipeInv s) (inside : (s.pc p).Inside) {q : P}
    (sleeps : s.asleep q = some chan) : s.pipe.Idle chan ∨ (s.pc p).Owes chan := by
  have mine := (inv.inside p).mp inside
  rcases h.idle q chan sleeps with idle | ⟨r, held, owes⟩
  · exact .inl idle
  · rw [mine] at held
    cases held
    exact .inr owes

variable [DecidableEq P]

/-- A step of the process that has the lock. It pays or keeps what it owes, and whoever
still sleeps did so before. -/
theorem Woken.holder (h : Woken s) (inv : PipeInv s) (was : s.pc p = old)
    (moved : t.pc = update s.pc p pc) (lock : t.lock = s.lock) (inside : old.Inside)
    (fewer : ∀ q chan, t.asleep q = some chan → s.asleep q = some chan)
    (keeps : ∀ q chan, t.asleep q = some chan → s.pipe.Idle chan ∨ old.Owes chan →
      t.pipe.Idle chan ∨ pc.Owes chan) : Woken t := by
  subst was
  have mine := (inv.inside p).mp inside
  have other : ∀ q chan, t.asleep q = some chan → q ≠ p := by
    rintro q chan sleeps rfl
    have := fewer q chan sleeps
    rw [h.awake_of_inside inside] at this
    cases this
  refine ⟨fun q chan sleeps => ?_, fun q chan sleeps => ?_⟩
  · rw [moved, update_of_ne (other q chan sleeps)]
    exact h.waits q chan (fewer q chan sleeps)
  · rcases keeps q chan sleeps (h.owed inv inside (fewer q chan sleeps)) with idle | owes
    · exact .inl idle
    · exact .inr ⟨p, by rw [lock, mine], by rw [moved, update_self]; exact owes⟩

theorem Woken.leaves (h : Woken s) (inv : PipeInv s) (was : s.pc p = old)
    (moved : t.pc = update s.pc p pc) (pipe : t.pipe = s.pipe) (inside : old.Inside)
    (paid : ∀ chan, ¬ old.Owes chan)
    (sleeper : ∀ q chan, t.asleep q = some chan →
      s.asleep q = some chan ∨ (q = p ∧ pc.Waits chan ∧ s.pipe.Idle chan)) : Woken t := by
  subst was
  refine ⟨fun q chan sleeps => ?_, fun q chan sleeps => .inl ?_⟩
  · rcases sleeper q chan sleeps with before | ⟨rfl, waits, -⟩
    · have other : q ≠ p := by
        rintro rfl
        rw [h.awake_of_inside inside] at before
        cases before
      rw [moved, update_of_ne other]
      exact h.waits q chan before
    · rw [moved, update_self]
      exact waits
  · rw [pipe]
    rcases sleeper q chan sleeps with before | ⟨-, -, idle⟩
    · exact (h.owed inv inside before).resolve_right (paid chan)
    · exact idle

theorem Woken.acquire (h : Woken s) (awake : s.asleep p = none) (pc : PipePc) :
    Woken (s.acquire p pc) := by
  unfold PipeSys.acquire
  split
  · rename_i free
    refine ⟨fun q chan sleeps => ?_, fun q chan sleeps => ?_⟩
    · have other : q ≠ p := by
        rintro rfl
        rw [show s.asleep q = some chan from sleeps] at awake
        cases awake
      simpa [PipeSys.goto, other] using h.waits q chan sleeps
    · rcases h.idle q chan sleeps with idle | ⟨r, held, -⟩
      · exact .inl idle
      · rw [free] at held; cases held
  · exact h

theorem Woken.tests (h : Woken s) (inv : PipeInv s) (was : s.pc p = old)
    (inside : old.Inside) (owes : ∀ chan, old.Owes chan → pc.Owes chan) : Woken (s.goto p pc) :=
  h.holder inv was rfl rfl inside (fun _ _ sleeps => sleeps)
    (fun _ chan _ owed => owed.imp_right (owes chan))

omit [DecidableEq P] in
theorem asleep_wakeup {other : PipeChan} {q : P} :
    (s.wakeup chan).asleep q = some other ↔ s.asleep q = some other ∧ other ≠ chan := by
  simp only [PipeSys.wakeup]
  split
  · rename_i mine
    rw [mine]
    simp only [reduceCtorEq, Option.some.injEq, ne_eq, false_iff, not_and, not_not]
    exact Eq.symm
  · rename_i differ
    refine ⟨fun sleeps => ⟨sleeps, ?_⟩, And.left⟩
    rintro rfl
    exact differ sleeps

theorem Woken.wakes (h : Woken s) (inv : PipeInv s) (was : s.pc p = old)
    (chan : PipeChan) (moved : t.pc = update s.pc p pc) (lock : t.lock = s.lock)
    (asleep : t.asleep = (s.wakeup chan).asleep) (inside : old.Inside)
    (keeps : ∀ other, other ≠ chan → s.pipe.Idle other ∨ old.Owes other →
      t.pipe.Idle other ∨ pc.Owes other) : Woken t := by
  refine h.holder inv was moved lock inside (fun q other sleeps => ?_) (fun q other sleeps => ?_)
  · rw [asleep] at sleeps
    exact (asleep_wakeup.mp sleeps).1
  · rw [asleep] at sleeps
    exact keeps other (asleep_wakeup.mp sleeps).2

theorem sleeper_cases (waits : pc.Waits chan) (idle : s.pipe.Idle chan)
    (q : P) (other : PipeChan) (sleeps : (s.sleep p chan pc).asleep q = some other) :
    s.asleep q = some other ∨ (q = p ∧ pc.Waits other ∧ s.pipe.Idle other) := by
  by_cases e : q = p
  · subst e
    simp only [PipeSys.sleep, PipeSys.goto, update_self, Option.some.injEq] at sleeps
    subst sleeps
    exact .inr ⟨rfl, waits, idle⟩
  · simp only [PipeSys.sleep, PipeSys.goto, update_of_ne e] at sleeps
    exact .inl sleeps

theorem Woken.next (h : Woken s) (inv : PipeInv s) (awake : s.asleep p = none)
    (announced : Announced s (.run p)) :
    Woken (s.next p (s.pc p)) := by
  have fact := inv.fact p
  cases pc : s.pc p <;> rw [pc] at fact
  case out => exact h
  case writeAcquire c => exact h.acquire awake _
  case readAcquire c => exact h.acquire awake _
  case closeAcquire w => exact h.acquire awake _
  case writeFor c =>
    simp only [PipeSys.next]
    split
    · exact h.tests inv pc trivial fun chan owes => by cases chan <;> exact owes
    · refine h.wakes inv pc .nread rfl rfl rfl trivial fun other ne owed => ?_
      cases other with
      | nread => exact absurd rfl ne
      | nwrite => exact owed
  case writeWhile c =>
    simp only [PipeSys.next]
    split
    · rename_i full
      split
      · -- the only way out of a loop without a wake-up
        rename_i gives
        refine h.holder inv pc rfl rfl trivial (fun _ _ sleeps => sleeps)
          fun q chan sleeps owed => ?_
        cases chan with
        | nwrite => exact owed
        | nread =>
          rcases announced c pc full gives with told | alone
          · exact .inl (owed.resolve_right (Nat.not_lt.mpr told))
          · exact absurd (waits_reading (h.waits q .nread sleeps)) (alone q)
      · exact h.tests inv pc trivial fun chan owes => by cases chan <;> trivial
    · exact h.tests inv pc trivial fun chan owes => by cases chan <;> exact owes
  case writeWake c =>
    refine h.wakes inv pc .nread rfl rfl rfl trivial fun other ne owed => ?_
    cases other with
    | nread => exact absurd rfl ne
    | nwrite => exact owed
  case writeSleep c =>
    refine h.leaves inv pc rfl rfl trivial (fun chan owes => by cases chan <;> exact owes) ?_
    exact sleeper_cases trivial fact.2
  case writeStore c =>
    refine h.holder inv pc rfl rfl trivial (fun _ _ sleeps => sleeps) fun q chan _ owed => .inr ?_
    cases chan with
    | nread => exact Nat.lt_succ_of_le fact.1
    | nwrite => exact (owed.elim (fun idle => fact.2 idle.1) id).elim
  case readWhile c =>
    simp only [PipeSys.next]
    split
    · split
      · exact h.tests inv pc trivial fun chan owes => by cases chan <;> exact owes.elim
      · exact h.tests inv pc trivial fun chan owes => by cases chan <;> exact owes.elim
    · exact h.tests inv pc trivial fun chan owes => by cases chan <;> exact owes.elim
  case readSleep c =>
    refine h.leaves inv pc rfl rfl trivial (fun chan owes => by cases chan <;> exact owes) ?_
    exact sleeper_cases trivial fact.2
  case readFor c =>
    simp only [PipeSys.next]
    split
    · exact h.tests inv pc trivial fun chan owes => by cases chan <;> exact owes
    · refine h.wakes inv pc .nwrite rfl rfl rfl trivial fun other ne owed => ?_
      cases other with
      | nread => exact owed
      | nwrite => exact absurd rfl ne
  case readTake c =>
    refine h.holder inv pc rfl rfl trivial (fun _ _ sleeps => sleeps) fun q chan _ owed => .inr ?_
    cases chan with
    | nread => exact (owed.elim (fun idle => fact idle.1) id).elim
    | nwrite => exact List.append_ne_nil_of_right_ne_nil _ (List.cons_ne_nil _ _)
  case closeSet w =>
    cases w with
    | true =>
      refine h.wakes inv pc .nread rfl rfl rfl trivial fun other ne owed => ?_
      cases other with
      | nread => exact absurd rfl ne
      | nwrite => exact owed
    | false =>
      refine h.wakes inv pc .nwrite rfl rfl rfl trivial fun other ne owed => ?_
      cases other with
      | nread => exact owed
      | nwrite => exact absurd rfl ne
  case closeTest =>
    exact h.leaves inv pc rfl rfl trivial (fun chan owes => by cases chan <;> exact owes)
      (fun _ _ sleeps => .inl sleeps)
  case leave r =>
    exact h.leaves inv pc rfl rfl trivial (fun chan owes => by cases chan <;> exact owes)
      (fun _ _ sleeps => .inl sleeps)

theorem Woken.call (h : Woken s) (p : P) (pc : PipePc) : Woken (s.call p pc) := by
  unfold PipeSys.call
  split
  · rename_i idle
    have other : ∀ q chan, s.asleep q = some chan → q ≠ p := by
      rintro q chan sleeps rfl
      have waits := h.waits q chan sleeps
      rw [idle] at waits
      cases chan <;> exact waits
    refine ⟨fun q chan sleeps => ?_, fun q chan sleeps => ?_⟩
    · simpa [PipeSys.goto, other q chan sleeps] using h.waits q chan sleeps
    · refine (h.idle q chan sleeps).imp_right ?_
      rintro ⟨r, held, owes⟩
      refine ⟨r, held, ?_⟩
      have busy : r ≠ p := by
        rintro rfl
        rw [idle] at owes
        cases chan <;> exact owes
      simpa [PipeSys.goto, busy] using owes
  · exact h

theorem Woken.step (h : Woken s) (inv : PipeInv s) (a : PipeAct P) (announced : Announced s a)
    (stepped : s.step a = .ok t) : Woken t := by
  unfold PipeSys.step at stepped
  split at stepped
  · cases stepped; exact h
  cases a with
  | pipewrite p addr n => cases stepped; exact h.call p _
  | piperead p n => cases stepped; exact h.call p _
  | pipeclose p w => cases stepped; exact h.call p _
  | run p =>
    cases stepped
    unfold PipeSys.run
    split
    · rename_i awake
      exact h.next inv awake announced
    · exact h
  | kill p =>
    cases stepped
    have fewer : ∀ q chan, (s.kill p).asleep q = some chan → s.asleep q = some chan := by
      intro q chan sleeps
      by_cases e : q = p
      · subst e; simp [PipeSys.kill] at sleeps
      · simpa [PipeSys.kill, e] using sleeps
    exact ⟨fun q chan sleeps => h.waits q chan (fewer q chan sleeps),
      fun q chan sleeps => h.idle q chan (fewer q chan sleeps)⟩

omit [DecidableEq P] in
theorem Woken.initial (fresh : s.Initial) : Woken s := by
  obtain ⟨data, killed, rfl⟩ := fresh
  exact ⟨fun _ _ sleeps => (nomatch sleeps), fun _ _ sleeps => (nomatch sleeps)⟩

section Run
variable {allowed : PipeSys P → PipeAct P → Prop}

theorem run_goto (run : Reaches PipeSys.step allowed PipeSys.Initial s) (may : allowed s (.run p))
    (awake : s.asleep p = none) (kept : s.freed = false) (at_ : s.pc p = pc) :
    Reaches PipeSys.step allowed PipeSys.Initial (s.next p pc) :=
  .step run may (by simp [PipeSys.step, PipeSys.run, awake, kept, at_])

theorem store_run (free : ∀ s p, allowed s (.run p))
    (run : Reaches PipeSys.step allowed PipeSys.Initial s) (at_ : s.pc p = .writeFor c)
    (awake : s.asleep p = none) (kept : s.freed = false) (more : c.i < c.n)
    (room : s.stored.length < s.taken.length + PIPESIZE) :
    Reaches PipeSys.step allowed PipeSys.Initial (s.store p c) := by
  have inv : PipeInv s :=
    run.invariant PipeInv (fun _ => PipeInv.initial) (fun s a t h _ stepped => h.step a stepped)
  have open_ : ¬ s.pipe.Full := by rw [inv.carries.full_iff]; omega
  have first := run_goto run (free s p) awake kept at_
  simp only [PipeSys.next, if_pos more] at first
  have second := run_goto first (free _ p) awake kept (update_self p _ _)
  simp only [PipeSys.next] at second
  rw [if_neg (by exact open_)] at second
  have third := run_goto second (free _ p) awake kept (update_self p _ _)
  simpa [PipeSys.next, PipeSys.store, PipeSys.goto] using third

theorem stores_run (free : ∀ s p, allowed s (.run p))
    (run : Reaches PipeSys.step allowed PipeSys.Initial s) (at_ : s.pc p = .writeFor c)
    (awake : s.asleep p = none) (kept : s.freed = false) (k : Nat) (more : c.i + k ≤ c.n)
    (room : s.stored.length + k ≤ s.taken.length + PIPESIZE) :
    ∃ t, Reaches PipeSys.step allowed PipeSys.Initial t ∧
      t.pc p = .writeFor { c with i := c.i + k } ∧
      t.asleep = s.asleep ∧ t.freed = false ∧ t.taken = s.taken ∧
      t.stored.length = s.stored.length + k ∧ t.pipe.readopen = s.pipe.readopen := by
  induction k with
  | zero => exact ⟨s, run, at_, rfl, kept, rfl, rfl, rfl⟩
  | succ k ih =>
    obtain ⟨t, run, at_, asleep, kept, taken, stored, opened⟩ := ih (by omega) (by omega)
    refine ⟨t.store p { c with i := c.i + k }, ?_, ?_, asleep, kept, taken, ?_, opened⟩
    · exact store_run free run at_ (by rw [asleep, awake]) kept (by simpa using by omega)
        (by rw [stored, taken]; omega)
    · simp [PipeSys.store, PipeSys.goto, Nat.add_assoc]
    · simp [PipeSys.store, PipeSys.goto, stored, Nat.add_assoc]

theorem killed_run (free : ∀ s a, allowed s a)
    (run : Reaches PipeSys.step allowed PipeSys.Initial s) (at_ : s.pc p = .writeFor c)
    (awake : s.asleep p = none) (kept : s.freed = false) (more : c.i < c.n) (full : s.pipe.Full) :
    ∃ t, Reaches PipeSys.step allowed PipeSys.Initial t ∧ t.lock = none ∧ t.pipe = s.pipe ∧
      ∀ q, q ≠ p → t.asleep q = s.asleep q := by
  have first := run_goto run (free _ _) awake kept at_
  simp only [PipeSys.next, if_pos more] at first
  have killed : Reaches PipeSys.step allowed PipeSys.Initial ((s.goto p (.writeWhile c)).kill p) :=
    .step (a := .kill p) first (free _ _) (if_neg (by simp [PipeSys.goto, kept]))
  have second := run_goto (p := p) killed (free _ _) (update_self p _ _) kept
    (update_self p _ _)
  simp only [PipeSys.next] at second
  rw [if_pos (by exact full), if_pos (.inr (update_self p _ _))] at second
  have third := run_goto (p := p) second (free _ _) (update_self p _ _) kept
    (update_self p _ _)
  exact ⟨_, third, rfl, rfl, fun q other => update_of_ne other _ _⟩

def asleepReader (p : P) : PipeSys P :=
  { pipe := { data := fun _ => 0 }
    pc := update (fun _ => .out) p (.readAcquire { n := 1 })
    asleep := update (fun _ => none) p (some .nread) }

theorem asleepReader_run (calls : ∀ s, allowed s (.piperead p 1))
    (runs : ∀ s : PipeSys P, (s.pc p).Reading → allowed s (.run p)) :
    Reaches PipeSys.step allowed PipeSys.Initial (asleepReader p) := by
  have fresh : Reaches PipeSys.step allowed PipeSys.Initial { pipe := { data := fun _ => 0 } } :=
    .start ⟨_, _, rfl⟩
  have called := Reaches.step fresh (calls _) rfl
  have first :=
    run_goto called (runs _ (by simp [PipeSys.call, PipeSys.goto, PipePc.Reading])) rfl rfl
    (update_self p _ _)
  have second := run_goto first
    (runs _ (by simp [PipeSys.next, PipeSys.acquire, PipeSys.call, PipeSys.goto, PipePc.Reading]))
      rfl rfl
    (update_self p _ _)
  have third := run_goto second
    (runs _ (by simp [PipeSys.next, PipeSys.acquire, PipeSys.call, PipeSys.goto, PipePc.Reading,
      Pipe.Empty])) rfl rfl
    (update_self p _ _)
  simpa [PipeSys.next, PipeSys.acquire, PipeSys.call, PipeSys.goto, PipeSys.sleep, Pipe.Empty,
    asleepReader] using third

end Run

/-- While nobody holds the lock of the pipe, a reader sleeps only on an empty pipe that has
a writer, and a writer only on a full one that has a reader. -/
theorem no_lost_pipe_wakeup (run : Reaches PipeSys.step Announced PipeSys.Initial s)
    (free : s.lock = none) (q : P) :
    (s.asleep q = some .nread → s.pipe.nread = s.pipe.nwrite ∧ s.pipe.writeopen = true) ∧
    (s.asleep q = some .nwrite →
      s.pipe.nwrite = (s.pipe.nread + PIPESIZE) % 2 ^ 32 ∧ s.pipe.readopen = true) := by
  have h : PipeInv s ∧ Woken s := run.invariant (fun s => PipeInv s ∧ Woken s)
    (fun s fresh => ⟨.initial fresh, .initial fresh⟩)
    (fun s a t h announced stepped => ⟨h.1.step a stepped, h.2.step h.1 a announced stepped⟩)
  have idle : ∀ chan, s.asleep q = some chan → s.pipe.Idle chan := fun chan sleeps =>
    (h.2.idle q chan sleeps).resolve_right fun ⟨p, held, _⟩ => by rw [free] at held; cases held
  exact ⟨idle .nread, idle .nwrite⟩

end Steps

/-- A reader that came before the writers sleeps, and there is nothing to read. -/
theorem reader_waits_for_bytes : ∃ s : PipeSys Bool,
    Reaches PipeSys.step Announced PipeSys.Initial s ∧ s.lock = none ∧
      s.asleep false = some .nread ∧ s.pipe.nread = s.pipe.nwrite := by
  have run : Reaches PipeSys.step Announced PipeSys.Initial (asleepReader false) := by
    refine asleepReader_run (fun _ => trivial) fun s reading c at_ => ?_
    rw [at_] at reading
    exact reading.elim
  exact ⟨asleepReader false, run, rfl, rfl, ((no_lost_pipe_wakeup run rfl false).1 rfl).1⟩

/-- A writer of 513 bytes is killed after it has filled the pipe. It returns with no
wake-up, and the reader sleeps on next to 512 bytes. -/
theorem killed_writer_leaves_reader_asleep : ∃ s : PipeSys Bool,
    Reaches PipeSys.step (fun _ _ => True) PipeSys.Initial s ∧ s.lock = none ∧
      s.asleep false = some .nread ∧ s.pipe.nread ≠ s.pipe.nwrite := by
  have asleep : Reaches PipeSys.step (fun _ _ => True) PipeSys.Initial (asleepReader false) :=
    asleepReader_run (fun _ => trivial) (fun _ _ => trivial)
  have called := Reaches.step (a := .pipewrite true (fun _ => 7) 513) asleep trivial rfl
  have locked := run_goto (p := true) called trivial rfl rfl rfl
  obtain ⟨t, run, at_, sleeps, kept, taken, stored, opened⟩ :=
      stores_run (p := true) (fun _ _ => trivial)
    locked (c := { addr := fun _ => 7, n := 513 }) rfl rfl rfl 512 (by decide) (by decide)
  have inv : PipeInv t :=
    run.invariant PipeInv (fun _ => PipeInv.initial) (fun s a t h _ stepped => h.step a stepped)
  have full : t.pipe.Full := by
    rw [inv.carries.full_iff, stored, taken]
    rfl
  obtain ⟨u, run, lock, pipe, others⟩ :=
    killed_run (fun _ _ => trivial) run at_ (by rw [sleeps]; rfl) kept (by decide) full
  refine ⟨u, run, lock, by rw [others false (by decide), sleeps]; rfl, ?_⟩
  rw [pipe]
  intro empty
  rw [← Pipe.Empty, inv.carries.empty_iff, stored, taken] at empty
  cases empty

end MmapXv6
