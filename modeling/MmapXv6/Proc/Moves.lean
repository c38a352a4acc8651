import MmapXv6.Proc.Sched

/-! Everything that a scheduler step can do to a process, as seen by the subsystems
that do not look at the queues: its state, its channel, its pid and its semaphores. -/
namespace MmapXv6

open Lib

inductive Moved (a : SchedAct) (s t : Sched) (q : Slot) : Prop where
  | kept : Kept s.table t.table q → Moved a s t q
  | claimed (p : Slot) : a = .forkClaim p → (s.table.proc q).state = .unused →
      (t.table.proc q).state = .embryo → Moved a s t q
  | undone (p : Slot) : Holds (s.fork p) q → a = .forkStack p false ∨ a = .forkCopy p false →
      (t.table.proc q).state = .unused → Moved a s t q
  | queued (p : Slot) : Holds (s.fork p) q → a = .forkCopy p true →
      (t.table.proc q).state = .runnable → Moved a s t q
  | dispatched : (s.table.proc q).state = .runnable →
      (t.table.proc q).state = .running → Moved a s t q
  | yielded : a = .yield q → (s.table.proc q).state = .running →
      (t.table.proc q).state = .runnable → Moved a s t q
  | slept (c : Chan) : a = .sleep q c → (s.table.proc q).state = .running →
      (t.table.proc q).state = .sleeping → (t.table.proc q).chan = some c → Moved a s t q
  | waited : a = .wait q → (s.table.proc q).state = .running →
      (t.table.proc q).state = .sleeping → (t.table.proc q).chan = some (.proc q) → Moved a s t q
  | exited : a = .exit q → (s.table.proc q).state = .running →
      (t.table.proc q).state = .zombie → Moved a s t q
  | reaped : (s.table.proc q).state = .zombie → (t.table.proc q).state = .unused → Moved a s t q

/-- No step of the scheduler touches the open semaphores, and each slot moves in one
of the listed ways. -/
structure StepFrame (a : SchedAct) (s t : Sched) : Prop where
  osemaphore : ∀ q, (t.table.proc q).osemaphore = (s.table.proc q).osemaphore
  moved : ∀ q, Moved a s t q
  holds : ∀ p np, Holds (t.fork p) np →
    Holds (s.fork p) np ∨ (a = .forkClaim p ∧ (s.table.proc np).state = .unused)

section Frames
variable {a : SchedAct} {s : Sched} {p : Slot}

theorem StepFrame.refl : StepFrame a s s :=
  ⟨fun _ => rfl, fun q => .kept (.refl _ q), fun _ _ h => .inl h⟩

theorem StepFrame.of_kept {t : Ptable} (keeps : ∀ q, Kept s.table t q) :
    StepFrame a s { s with table := t } :=
  ⟨fun q => (keeps q).osemaphore, fun q => .kept (keeps q), fun _ _ h => .inl h⟩

theorem modify_moved {f : Proc → Proc} {q : Slot} {fork : Slot → ForkPc}
    (moved : Moved a s { table := s.table.modify p f, fork := fork } p) :
    Moved a s { table := s.table.modify p f, fork := fork } q := by
  by_cases e : q = p
  · subst e; exact moved
  · exact .kept (.of_eq (s.table.modify_ne f e))

theorem modify_osemaphore (t : Ptable) (f : Proc → Proc)
    (sems : (f (t.proc p)).osemaphore = (t.proc p).osemaphore) (q : Slot) :
    ((t.modify p f).proc q).osemaphore = (t.proc q).osemaphore := by
  by_cases e : q = p
  · subst e; simpa using sems
  · rw [t.modify_ne f e]

theorem StepFrame.of_modify {f : Proc → Proc}
    (sems : (f (s.table.proc p)).osemaphore = (s.table.proc p).osemaphore)
    (moved : Moved a s { s with table := s.table.modify p f } p) :
    StepFrame a s { s with table := s.table.modify p f } :=
  ⟨modify_osemaphore s.table f sems, fun _ => modify_moved moved, fun _ _ h => .inl h⟩

theorem enterFork_frame : StepFrame (.forkClaim p) s (s.enterFork p) := by
  unfold Sched.enterFork
  split
  · exact .refl
  · rename_i np t found
    obtain ⟨unused, rfl⟩ := allocproc_some found
    have sems := modify_osemaphore (p := np) s.table
      (fun r => { r with state := .embryo, pid := s.table.nextpid }) rfl
    refine ⟨sems, fun q => ?_, fun r n hr => ?_⟩
    · by_cases e : q = np
      · subst e; exact .claimed p rfl unused (by simp [Ptable.modify])
      · have same :=
          s.table.modify_ne (fun r => { r with state := .embryo, pid := s.table.nextpid }) e
        exact .kept (.of_eq same)
    · rcases holds_update hr with ⟨rfl, h | h⟩ | ⟨-, old⟩
      · cases h; exact .inr ⟨rfl, unused⟩
      · cases h
      · exact .inl old

theorem undo_frame {np : Slot} (holds : Holds (s.fork p) np)
    (which : a = .forkStack p false ∨ a = .forkCopy p false) :
    StepFrame a s { table := allocprocUndo s.table np, fork := Function.update s.fork p .out } := by
  have sems := modify_osemaphore (p := np) s.table (fun r => { r with state := .unused }) rfl
  refine ⟨sems, fun q => ?_, fun r n hr => ?_⟩
  · exact modify_moved (.undone p holds which (by simp))
  · rcases holds_update hr with ⟨_, h⟩ | ⟨-, old⟩
    · exact absurd h (not_holds_out n)
    · exact .inl old

theorem stackFork_frame (got : Bool) : StepFrame (.forkStack p got) s (s.stackFork p got) := by
  unfold Sched.stackFork
  split
  · rename_i np pc
    have holds : Holds (s.fork p) np := .inl pc
    cases got with
    | true =>
      rw [if_pos rfl]
      have kept :=
        modify_kept s.table np (fun r => { r with priority := 0, age := 0 }) ⟨rfl, rfl, rfl, rfl⟩
      refine ⟨fun q => (kept q).osemaphore, fun q => .kept (kept q), fun r n hr => ?_⟩
      rcases holds_update hr with ⟨rfl, h | h⟩ | ⟨-, old⟩
      · cases h
      · cases h; exact .inl holds
      · exact .inl old
    | false => exact undo_frame holds (.inl rfl)
  · exact .refl

theorem finishFork_frame {got : Bool} {t : Sched} (h : s.finishFork p got = .ok t) :
    StepFrame (.forkCopy p got) s t := by
  unfold Sched.finishFork at h
  split at h
  · rename_i np pc
    have holds : Holds (s.fork p) np := .inr pc
    cases got with
    | true =>
      rw [if_pos rfl, bind_ok] at h
      obtain ⟨u, hu, h⟩ := h
      cases Except.ok.inj h
      have requeued := makeRunnable_requeued hu
      constructor
      · intro q
        by_cases e : q = np
        · subst e; rw [requeued.self]; simp
        · rw [(requeued.calm e).osemaphore, s.table.modify_ne _ e]
      · intro q
        by_cases e : q = np
        · subst e; exact .queued p holds rfl (by rw [requeued.self])
        · exact .kept ((Kept.of_eq (s.table.modify_ne _ e)).trans (requeued.calm e).toKept)
      · intro r n hr
        rcases holds_update hr with ⟨_, h⟩ | ⟨-, old⟩
        · exact absurd h (not_holds_out n)
        · exact .inl old
    | false =>
      cases Except.ok.inj h
      exact undo_frame holds (.inr rfl)
  · cases Except.ok.inj h
    exact .refl

theorem dispatch_frame {r : Option Slot} {u : Ptable} (h : scheduler s.table = .ok (r, u)) :
    StepFrame .dispatch s { s with table := u } := by
  rcases scheduler_ok h with ⟨_, rfl⟩ | ⟨p, v, _, runnable, same, -, rfl⟩
  · exact .refl
  · refine ⟨fun q => ?_, fun q => ?_, fun _ _ h => .inl h⟩
    · rw [modify_osemaphore v Proc.resume rfl q, same]
    · by_cases e : q = p
      · subst e; exact .dispatched runnable (by simp [Proc.resume])
      · have kept : v.proc q = s.table.proc q := by rw [same]
        exact .kept (.of_eq ((v.modify_ne Proc.resume e).trans kept))

theorem yield_frame {u : Ptable} (running : (s.table.proc p).state = .running)
    (h : yield s.table p = .ok u) : StepFrame (.yield p) s { s with table := u } := by
  obtain ⟨state, _, _, sems, others⟩ := yield_ok h
  refine ⟨fun q => ?_, fun q => ?_, fun _ _ h => .inl h⟩ <;> by_cases e : q = p
  · subst e; exact sems
  · exact (others q e).osemaphore
  · subst e; exact .yielded rfl running state
  · exact .kept (others q e)

theorem exit_frame {u : Ptable} (free : s.Free p) (h : exitLocked s.table p = .ok u) :
    StepFrame (.exit p) s { s with table := u } := by
  obtain ⟨v, kept, rfl⟩ := exitLocked_frame h
  refine ⟨fun q => ?_, fun q => ?_, fun _ _ h => .inl h⟩ <;> by_cases e : q = p
  · subst e; simpa using (kept q).osemaphore
  · simpa [Ptable.modify, e] using (kept q).osemaphore
  · subst e; exact .exited rfl free.1 (by simp)
  · have same := v.modify_ne (fun r => { r with state := .zombie }) e
    exact .kept ((kept q).toKept.trans (.of_eq same))

theorem wait_frame (free : s.Free p) : StepFrame (.wait p) s
    { s with table := (wait s.table p).2 } := by
  unfold wait
  split
  · rename_i c found
    have zombie := List.find?_some found
    simp only [decide_eq_true_eq] at zombie
    exact .of_modify rfl (.reaped zombie.2 (by simp [Proc.reap]))
  · split
    · exact .refl
    · exact .of_modify (f := fun q => { q with chan := some (.proc p), state := .sleeping }) rfl
        (.waited rfl free.1 (by simp) (by simp))

theorem Sched.step_frame {t : Sched} (h : s.step a = .ok t) : StepFrame a s t := by
  cases a with
  | forkClaim p =>
    cases h
    split
    · exact enterFork_frame
    · exact .refl
  | forkStack p got =>
    cases h
    split
    · exact stackFork_frame got
    · exact .refl
  | forkCopy p got =>
    simp only [Sched.step] at h
    split at h
    · exact finishFork_frame h
    · cases h; exact .refl
  | dispatch =>
    simp only [Sched.step, bind_ok] at h
    obtain ⟨r, hr, h⟩ := h
    cases h
    exact dispatch_frame (r := r.1) hr
  | yield p =>
    simp only [Sched.step] at h
    split at h
    · rename_i running
      rw [Sched.withTable, bind_ok] at h
      obtain ⟨u, hu, h⟩ := h
      cases h
      exact yield_frame running hu
    · cases h; exact .refl
  | sleep p c =>
    cases h
    split
    · rename_i free
      exact .of_modify rfl (.slept c rfl free.1 (by simp) (by simp))
    · exact .refl
  | wakeup c =>
    rw [Sched.step, Sched.withTable, bind_ok] at h
    obtain ⟨u, hu, h⟩ := h
    cases h
    exact .of_kept (wakeup1_kept hu)
  | kill p pid =>
    simp only [Sched.step] at h
    split at h
    · rw [bind_ok] at h
      obtain ⟨r, hr, h⟩ := h
      cases h
      exact .of_kept (kill_kept (r := r.1) hr)
    · cases h; exact .refl
  | exit p =>
    simp only [Sched.step] at h
    split at h
    · rename_i free
      split at h
      · cases h
      · rw [Sched.withTable, bind_ok] at h
        obtain ⟨u, hu, h⟩ := h
        cases h
        exact exit_frame free hu
    · cases h; exact .refl
  | wait p =>
    cases h
    split
    · rename_i free
      exact wait_frame free
    · exact .refl
  | calculateaging =>
    rw [Sched.step, Sched.withTable, bind_ok] at h
    obtain ⟨u, hu, h⟩ := h
    cases h
    exact .of_kept (calculateaging_kept hu)
  | setpriority p level =>
    cases h
    split
    · exact .of_kept (modify_kept s.table p _ ⟨rfl, rfl, rfl, rfl⟩)
    · exact .refl

end Frames

def ProcState.Live (x : ProcState) : Prop := x = .running ∨ x = .runnable ∨ x = .sleeping

section Origins
variable {a : SchedAct} {s t : Sched} {q : Slot}

theorem StepFrame.unused_of (f : StepFrame a s t) (h : (t.table.proc q).state = .unused) :
    (s.table.proc q).state = .unused ∨ (s.table.proc q).state = .zombie ∨
      ∃ p, Holds (s.fork p) q ∧ (a = .forkStack p false ∨ a = .forkCopy p false) := by
  rcases f.moved q with k | ⟨_, _, _, e⟩ | ⟨p, held, which, _⟩ | ⟨_, _, _, e⟩ | ⟨_, e⟩ | ⟨_, _, e⟩
    | ⟨_, _, _, e, _⟩ |
    ⟨_, _, e, _⟩ | ⟨_, _, e⟩ | ⟨zombie, _⟩
  · rcases k.state with e | ⟨_, e⟩
    · exact .inl (e ▸ h)
    · cases e.symm.trans h
  · cases e.symm.trans h
  · exact .inr (.inr ⟨p, held, which⟩)
  · cases e.symm.trans h
  · cases e.symm.trans h
  · cases e.symm.trans h
  · cases e.symm.trans h
  · cases e.symm.trans h
  · cases e.symm.trans h
  · exact .inr (.inl zombie)

theorem StepFrame.zombie_of (f : StepFrame a s t) (h : (t.table.proc q).state = .zombie) :
    (s.table.proc q).state = .zombie ∨ a = .exit q := by
  rcases f.moved q with k | ⟨_, _, _, e⟩ | ⟨_, _, _, e⟩ | ⟨_, _, _, e⟩ | ⟨_, e⟩ | ⟨_, _, e⟩
    | ⟨_, _, _, e, _⟩ |
    ⟨_, _, e, _⟩ | ⟨exit, _, _⟩ | ⟨_, e⟩
  · rcases k.state with e | ⟨_, e⟩
    · exact .inl (e ▸ h)
    · cases e.symm.trans h
  · cases e.symm.trans h
  · cases e.symm.trans h
  · cases e.symm.trans h
  · cases e.symm.trans h
  · cases e.symm.trans h
  · cases e.symm.trans h
  · cases e.symm.trans h
  · exact .inr exit
  · cases e.symm.trans h

theorem StepFrame.sleeping_of (f : StepFrame a s t) (h : (t.table.proc q).state = .sleeping)
    {c : Chan} (on : (t.table.proc q).chan = some c) :
    ((s.table.proc q).state = .sleeping ∧ (s.table.proc q).chan = some c) ∨ a = .sleep q c ∨
      c = .proc q := by
  rcases f.moved q with k | ⟨_, _, _, e⟩ | ⟨_, _, _, e⟩ | ⟨_, _, _, e⟩ | ⟨_, e⟩ | ⟨_, _, e⟩
    | ⟨d, slept, _, _, e⟩ |
    ⟨_, _, _, e⟩ | ⟨_, _, e⟩ | ⟨_, e⟩
  · exact .inl ⟨k.asleep h, k.chan ▸ on⟩
  · cases e.symm.trans h
  · cases e.symm.trans h
  · cases e.symm.trans h
  · cases e.symm.trans h
  · cases e.symm.trans h
  · cases Option.some.inj (e.symm.trans on)
    exact .inr (.inl slept)
  · exact .inr (.inr (Option.some.inj (e.symm.trans on)).symm)
  · cases e.symm.trans h
  · cases e.symm.trans h

theorem StepFrame.live_of {limited : Prop} (f : StepFrame a s t) (inv : SchedInv limited s)
    (h : (s.table.proc q).state.Live) :
    (t.table.proc q).state.Live ∨ a = .exit q := by
  have notEmbryo : ∀ p, ¬ Holds (s.fork p) q := by
    intro p held
    have := inv.embryo p q held
    rw [this] at h
    rcases h with e | e | e <;> cases e
  rcases f.moved q with k | ⟨_, _, e, _⟩ | ⟨p, held, _⟩ | ⟨p, held, _⟩ | ⟨_, e⟩ | ⟨_, _, e⟩
    | ⟨_, _, _, e, _⟩ |
    ⟨_, _, e, _⟩ | ⟨exit, _⟩ | ⟨e, _⟩
  · rcases k.state with e | ⟨_, e⟩
    · exact .inl (e ▸ h)
    · exact .inl (.inr (.inl e))
  · rw [e] at h
    rcases h with e | e | e <;> cases e
  · exact absurd held (notEmbryo p)
  · exact absurd held (notEmbryo p)
  · exact .inl (.inl e)
  · exact .inl (.inr (.inl e))
  · exact .inl (.inr (.inr e))
  · exact .inl (.inr (.inr e))
  · exact .inr exit
  · rw [e] at h
    rcases h with e | e | e <;> cases e

end Origins

end MmapXv6
