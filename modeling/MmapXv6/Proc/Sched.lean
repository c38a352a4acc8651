import MmapXv6.Proc.Mlf

/-! The scheduler as a state machine. Every section under ptable.lock is one step
and the steps of all processes and interrupt handlers interleave freely, so no
bound on the number of CPUs is assumed: any number of processes may be RUNNING.
An action that its process cannot take in the current state changes nothing. -/
namespace MmapXv6

open Lib
open Function (update update_of_ne update_self)

variable {limited : Prop} {np p : Slot} {s : Sched} {t : Ptable}

/-- Where a process is inside fork: outside of it, holding a claimed slot that still
has no kernel stack, or holding one that only has to be filled and queued. -/
inductive ForkPc where
  | out
  | claimed (np : Slot)
  | ready (np : Slot)
  deriving DecidableEq, Repr

structure Sched where
  table : Ptable
  fork : Slot → ForkPc := fun _ => .out

/-- The Boolean arguments say whether kalloc, and copyuvm, found memory. -/
inductive SchedAct where
  | forkClaim (p : Slot)
  | forkStack (p : Slot) (got : Bool)
  | forkCopy (p : Slot) (got : Bool)
  | dispatch
  | yield (p : Slot)
  | sleep (p : Slot) (chan : Chan)
  | wakeup (chan : Chan)
  | kill (p : Slot) (pid : Int)
  | exit (p : Slot)
  | wait (p : Slot)
  | calculateaging
  | setpriority (p : Slot) (level : Int)

def Sched.Free (s : Sched) (p : Slot) : Prop :=
  (s.table.proc p).state = .running ∧ s.fork p = .out

instance (s : Sched) (p : Slot) : Decidable (s.Free p) :=
  inferInstanceAs (Decidable (_ ∧ _))

def Sched.enterFork (s : Sched) (p : Slot) : Sched :=
  match allocproc s.table with
  | none => s
  | some (np, t) => { table := t, fork := update s.fork p (.claimed np) }

def Sched.stackFork (s : Sched) (p : Slot) (got : Bool) : Sched :=
  match s.fork p with
  | .claimed np =>
    if got then { table := allocprocSetup s.table np, fork := update s.fork p (.ready np) }
    else { table := allocprocUndo s.table np, fork := update s.fork p .out }
  | _ => s

def Sched.finishFork (s : Sched) (p : Slot) (got : Bool) : Except Panic Sched :=
  match s.fork p with
  | .ready np =>
    if got then do
      let t ← forkQueue s.table p np
      return { table := t, fork := update s.fork p .out }
    else .ok { table := allocprocUndo s.table np, fork := update s.fork p .out }
  | _ => .ok s

def Sched.withTable (s : Sched) (r : Except Panic Ptable) : Except Panic Sched := do
  let t ← r
  return { s with table := t }

def Sched.step (s : Sched) : SchedAct → Except Panic Sched
  | .forkClaim p => .ok (if s.Free p then s.enterFork p else s)
  | .forkStack p got => .ok (if (s.table.proc p).state = .running then s.stackFork p got else s)
  | .forkCopy p got => if (s.table.proc p).state = .running then s.finishFork p got else .ok s
  | .dispatch => do
    let r ← scheduler s.table
    return { s with table := r.2 }
  | .yield p => if (s.table.proc p).state = .running then s.withTable (yield s.table p) else .ok s
  | .sleep p chan => .ok (if s.Free p then { s with table := sleep s.table p chan } else s)
  | .wakeup chan => s.withTable (wakeup1 s.table (some chan))
  | .kill p pid =>
    if s.Free p then do
      let r ← kill s.table pid
      return { s with table := r.2 }
    else .ok s
  | .exit p =>
    if s.Free p then
      if s.table.initproc = some p then .error .initExiting
      else s.withTable (exitLocked s.table p)
    else .ok s
  | .wait p => .ok (if s.Free p then { s with table := (wait s.table p).2 } else s)
  | .calculateaging => s.withTable (calculateaging s.table)
  | .setpriority p level =>
    .ok (if s.Free p then { s with table := setpriority s.table p level } else s)

def Sched.initial : Sched := { table := userinit.toOption.getD {} }

theorem userinit_ok : userinit = .ok Sched.initial.table := rfl

def SchedAct.InRange : SchedAct → Prop
  | .setpriority _ level => 0 ≤ level ∧ level < MLFLEVELS
  | _ => True

instance : (a : SchedAct) → Decidable a.InRange
  | .setpriority _ _ => inferInstanceAs (Decidable (_ ∧ _))
  | .forkClaim _ | .forkStack _ _ | .forkCopy _ _ | .dispatch | .yield _ | .sleep _ _ | .wakeup _
  | .kill _ _ | .exit _ | .wait _ | .calculateaging => isTrue trivial

/-- What setpriority leaves in the ushort is a level of the MLF. -/
def SchedAct.StoresLevel : SchedAct → Prop
  | .setpriority _ level => level % 2 ^ 16 < MLFLEVELS
  | _ => True

theorem SchedAct.InRange.storesLevel {a : SchedAct} (range : a.InRange) : a.StoresLevel := by
  cases a with
  | setpriority p level =>
    have low : 0 ≤ level := range.1
    have high : level < MLFLEVELS := range.2
    simp only [SchedAct.StoresLevel]
    omega
  | _ => trivial

def Sched.Reached : Sched → Prop :=
  Reaches Sched.step (fun _ a => a.InRange) (· = Sched.initial)

def Holds (pc : ForkPc) (np : Slot) : Prop := pc = .claimed np ∨ pc = .ready np

theorem not_holds_out (np : Slot) : ¬ Holds .out np := by
  rintro (h | h) <;> cases h

theorem holds_update {fork : Slot → ForkPc} {pc : ForkPc} {q : Slot}
    (h : Holds (update fork p pc q) np) :
    (q = p ∧ Holds pc np) ∨ (q ≠ p ∧ Holds (fork q) np) := by
  by_cases e : q = p
  · subst e; rw [update_self] at h; exact .inl ⟨rfl, h⟩
  · rw [update_of_ne e] at h; exact .inr ⟨e, h⟩

/-- The queues are in shape, and each slot claimed by a fork is EMBRYO and has one owner. -/
structure SchedInv (limited : Prop) (s : Sched) : Prop where
  mlf : Queued limited s.table
  embryo : ∀ p np, Holds (s.fork p) np → (s.table.proc np).state = .embryo
  owner : ∀ p q np, Holds (s.fork p) np → Holds (s.fork q) np → p = q

theorem SchedInv.table (h : SchedInv limited s) (mlf : Queued limited t)
    (keeps : ∀ q, (s.table.proc q).state = .embryo → (t.proc q).state = .embryo) :
    SchedInv limited { s with table := t } :=
  ⟨mlf, fun p np hp => keeps np (h.embryo p np hp), h.owner⟩

theorem SchedInv.kept (h : SchedInv limited s) (mlf : Queued limited t)
    (keeps : ∀ q, (s.table.proc q).state = .embryo → Kept s.table t q) :
    SchedInv limited { s with table := t } :=
  h.table mlf (fun q hq => by rw [(keeps q hq).awake (by rw [hq]; decide), hq])

theorem SchedInv.modify (h : SchedInv limited s) {f : Proc → Proc}
    (mlf : Queued limited (s.table.modify p f)) (old : (s.table.proc p).state ≠ .embryo) :
    SchedInv limited { s with table := s.table.modify p f } :=
  h.table mlf (fun q hq => by
    have ne : q ≠ p := by rintro rfl; exact old hq
    rw [s.table.modify_ne f ne, hq])

theorem SchedInv.leave (h : SchedInv limited s) (holds : Holds (s.fork p) np)
    (mlf : Queued limited t)
    (keeps : ∀ q, q ≠ np → (s.table.proc q).state = .embryo → (t.proc q).state = .embryo) :
    SchedInv limited { table := t, fork := update s.fork p .out } := by
  have others : ∀ q n, Holds (update s.fork p .out q) n → q ≠ p ∧ Holds (s.fork q) n := by
    intro q n hq
    exact (holds_update hq).resolve_left fun gone => not_holds_out n gone.2
  refine ⟨mlf, fun q n hq => ?_, fun q r n hq hr => ?_⟩
  · obtain ⟨ne, hq⟩ := others q n hq
    have differ : n ≠ np := by rintro rfl; exact ne (h.owner q p n hq holds)
    exact keeps n differ (h.embryo q n hq)
  · exact h.owner q r n (others q n hq).2 (others r n hr).2

/-- The panics that can be the next step: the first process exits, or it leaves the array mlf. -/
def StepFails (limited : Prop) (e : Panic) : Prop := e = .initExiting ∨ Outside limited e

section Step

theorem SchedInv.enterFork (h : SchedInv limited s) : SchedInv limited (s.enterFork p) := by
  unfold Sched.enterFork
  split
  · exact h
  · rename_i np t found
    obtain ⟨unused, rfl⟩ := allocproc_some found
    have old : ∀ q n, Holds (s.fork q) n → n ≠ np := by
      rintro q n hq rfl
      have := h.embryo q n hq
      rw [unused] at this
      cases this
    have holder : ∀ q n, Holds (update s.fork p (.claimed np) q) n →
        (q = p ∧ n = np) ∨ (q ≠ p ∧ Holds (s.fork q) n) := by
      intro q n hq
      apply (holds_update hq).imp_left
      rintro ⟨e, hn | hn⟩ <;> cases hn
      exact ⟨e, rfl⟩
    refine ⟨h.mlf.allocproc found, fun q n hq => ?_, fun q r n hq hr => ?_⟩
    · rcases holder q n hq with ⟨_, rfl⟩ | ⟨_, hq⟩
      · simp [Ptable.modify]
      · have e := h.embryo q n hq
        simpa [Ptable.modify, old q n hq] using e
    · rcases holder q n hq with ⟨eq, en⟩ | ⟨_, hq⟩
      · rcases holder r n hr with ⟨er, _⟩ | ⟨_, hr⟩
        · rw [eq, er]
        · exact absurd en (old r n hr)
      · rcases holder r n hr with ⟨_, en⟩ | ⟨_, hr⟩
        · exact absurd en (old q n hq)
        · exact h.owner q r n hq hr

theorem SchedInv.undo (h : SchedInv limited s) (holds : Holds (s.fork p) np) :
    SchedInv limited { table := allocprocUndo s.table np, fork := update s.fork p .out } := by
  have embryo := h.embryo p np holds
  refine h.leave holds ?_ (fun q ne hq => ?_)
  · exact h.mlf.modify_idle _ (by rw [embryo]; decide) (by simp) fun lim => h.mlf.inRange lim np
  · rw [allocprocUndo, s.table.modify_ne _ ne, hq]

theorem SchedInv.stackFork (h : SchedInv limited s) (got : Bool) :
    SchedInv limited (s.stackFork p got) := by
  unfold Sched.stackFork
  split
  · rename_i np pc
    have holds : Holds (s.fork p) np := .inl pc
    split
    · -- the slot keeps its owner: the table changes first, then the program counter
      have setup : SchedInv limited { s with table := allocprocSetup s.table np } := by
        refine h.table (h.mlf.allocprocSetup (h.embryo p np holds)) (fun q hq => ?_)
        by_cases e : q = np
        · subst e; simpa [allocprocSetup] using hq
        · rw [allocprocSetup, s.table.modify_ne _ e, hq]
      have same : ∀ q n, Holds (update s.fork p (.ready np) q) n → Holds (s.fork q) n := by
        intro q n hq
        rcases holds_update hq with ⟨rfl, hn | hn⟩ | ⟨-, old⟩
        · cases hn
        · cases hn; exact holds
        · exact old
      exact ⟨setup.mlf, fun q n hq => setup.embryo q n (same q n hq),
        fun q r n hq hr => h.owner q r n (same q n hq) (same r n hr)⟩
    · exact h.undo holds
  · exact h

theorem SchedInv.finishFork (h : SchedInv limited s) (got : Bool) :
    Ensures (s.finishFork p got) (SchedInv limited) (Outside limited) := by
  unfold Sched.finishFork
  split
  · rename_i np pc
    have holds : Holds (s.fork p) np := .inr pc
    split
    · refine (h.mlf.forkQueue (h.embryo p np holds)).returns.bind fun u ⟨mlf, hu⟩ =>
        h.leave holds mlf (fun q ne hq => ?_)
      have kept := ((makeRunnable_requeued hu).calm ne).toKept
      rw [kept.awake (by rw [s.table.modify_ne _ ne, hq]; decide), s.table.modify_ne _ ne, hq]
    · exact h.undo holds
  · exact h

theorem SchedInv.dispatch (h : SchedInv limited s) {r : Option Slot} {u : Ptable}
    (done : scheduler s.table = .ok (r, u)) (mlf : Queued limited u) :
    SchedInv limited { s with table := u } := by
  rcases scheduler_ok done with ⟨_, rfl⟩ | ⟨p, v, _, runnable, same, -, rfl⟩
  · exact h
  · refine h.table mlf (fun q hq => ?_)
    have ne : q ≠ p := by rintro rfl; rw [runnable] at hq; cases hq
    rw [v.modify_ne _ ne, same, hq]

theorem SchedInv.exit (h : SchedInv limited s) {u : Ptable}
    (running : (s.table.proc p).state = .running) (done : exitLocked s.table p = .ok u)
    (mlf : Queued limited u) : SchedInv limited { s with table := u } := by
  refine h.table mlf (fun q hq => ?_)
  obtain ⟨v, kept, rfl⟩ := exitLocked_frame done
  have ne : q ≠ p := by rintro rfl; rw [running] at hq; cases hq
  rw [v.modify_ne _ ne, (kept q).awake (by rw [hq]; decide), hq]

theorem SchedInv.wait (h : SchedInv limited s) (running : (s.table.proc p).state = .running) :
    SchedInv limited { s with table := (wait s.table p).2 } := by
  refine h.table (h.mlf.wait running) (fun q hq => ?_)
  unfold MmapXv6.wait
  split
  · rename_i c found
    have zombie := List.find?_some found
    simp only [decide_eq_true_eq] at zombie
    have ne : q ≠ c := by rintro rfl; rw [zombie.2] at hq; cases hq
    rw [s.table.modify_ne _ ne, hq]
  · split
    · exact hq
    · have ne : q ≠ p := by rintro rfl; rw [running] at hq; cases hq
      rw [sleep, s.table.modify_ne _ ne, hq]

theorem SchedInv.setpriority (h : SchedInv limited s) (running : (s.table.proc p).state = .running)
    {level : Int} (range : limited → level % 2 ^ 16 < MLFLEVELS) :
    SchedInv limited { s with table := setpriority s.table p level } := by
  refine h.modify (h.mlf.modify_idle _ ?_ ?_ fun lim => ?_) (by rw [running]; decide)
  · rw [running]; decide
  · simp [running]
  · have := range lim
    simp only
    omega

end Step

/-- The step lemma: an invariant state answers every action with an invariant state or with one
of two panics. -/
theorem SchedInv.step (h : SchedInv limited s) (a : SchedAct) (range : limited → a.StoresLevel) :
    Ensures (s.step a) (SchedInv limited) (StepFails limited) := by
  have table : ∀ {r : Except Panic Ptable}, Ensures r (Queued limited) (Outside limited) →
      (∀ u, r = .ok u → Queued limited u → SchedInv limited { s with table := u }) →
      Ensures (s.withTable r) (SchedInv limited) (StepFails limited) := by
    intro r queued keeps
    exact (queued.returns.worse fun _ => .inr).bind fun u hu => keeps u hu.2 hu.1
  cases a with
  | forkClaim p =>
    simp only [Sched.step]
    split
    · exact h.enterFork
    · exact h
  | forkStack p got =>
    simp only [Sched.step]
    split
    · exact h.stackFork got
    · exact h
  | forkCopy p got =>
    simp only [Sched.step]
    split
    · exact (h.finishFork got).worse fun _ => .inr
    · exact h
  | dispatch =>
    exact (h.mlf.scheduler.returns.worse fun _ => .inr).bind fun r hr => h.dispatch hr.2 hr.1
  | yield p =>
    simp only [Sched.step]
    split
    · rename_i running
      refine table (h.mlf.yield running) fun u hu mlf => h.kept mlf fun q hq => ?_
      exact (yield_ok hu).2.2.2.2 q (by rintro rfl; rw [running] at hq; cases hq)
    · exact h
  | sleep p chan =>
    simp only [Sched.step]
    split
    · rename_i free
      exact h.modify (h.mlf.sleep free.1 chan) (by rw [free.1]; decide)
    · exact h
  | wakeup chan =>
    exact table (h.mlf.wakeup1 _) fun u hu mlf => h.kept mlf fun q _ => wakeup1_kept hu q
  | kill p pid =>
    simp only [Sched.step]
    split
    · exact ((h.mlf.kill pid).returns.worse fun _ => .inr).bind fun r hr =>
        h.kept hr.1 fun q _ => kill_kept (r := r.1) hr.2 q
    · exact h
  | exit p =>
    simp only [Sched.step]
    split
    · rename_i free
      split
      · exact .inl rfl
      · exact table (h.mlf.exitLocked free.1) fun u hu mlf => h.exit free.1 hu mlf
    · exact h
  | wait p =>
    simp only [Sched.step]
    split
    · rename_i free
      exact h.wait free.1
    · exact h
  | calculateaging =>
    exact table h.mlf.calculateaging fun u hu mlf => h.kept mlf fun q _ => calculateaging_kept hu q
  | setpriority p level =>
    simp only [Sched.step]
    split
    · rename_i free
      exact h.setpriority free.1 range
    · exact h

theorem initial_inv (limited : Prop) : SchedInv limited Sched.initial := by
  have empty : Queued limited {} :=
    ⟨⟨fun _ => IsQueue.empty _, fun _ _ _ h => by cases h⟩, fun _ _ => by simp [replay],
      fun _ => by simp, fun _ => by simp, fun _ _ => by simp, fun _ => List.Pairwise.nil⟩
  have no_fork : ∀ p np, ¬ Holds (Sched.initial.fork p) np := fun p np => not_holds_out np
  refine ⟨?_, fun p np h => absurd h (no_fork p np), fun p _ np h => absurd h (no_fork p np)⟩
  have init := userinit_ok
  unfold userinit at init
  split at init
  · exact (Except.ok.inj init) ▸ empty
  · rename_i p t found
    have embryo : (t.proc p).state = .embryo := by
      rw [(allocproc_some found).2]; simp [Ptable.modify]
    have setup := (empty.allocproc found).allocprocSetup embryo
    have first : Queued limited { allocprocSetup t p with initproc := some p } :=
      setup.congr rfl rfl rfl
    refine (first.take ?_).queued.of_ok init
    simp [allocprocSetup, embryo]

theorem SchedInv.of_run {allowed : Sched → SchedAct → Prop}
    (range : limited → ∀ s a, allowed s a → a.StoresLevel)
    (run : Reaches Sched.step allowed (· = Sched.initial) s) : SchedInv limited s := by
  refine run.invariant (SchedInv limited) ?_ fun s a t h ok done => ?_
  · rintro _ rfl
    exact initial_inv limited
  · exact (h.step a fun lim => range lim s a ok).of_ok done

theorem Sched.Reached.inv (run : s.Reached) : SchedInv True s :=
  .of_run (fun _ _ _ range => range.storesLevel) run

/-- In every reachable state each level is a proper chain: it starts at first, ends at
last with a null link, repeats nothing and holds RUNNABLE processes of that priority;
every RUNNABLE process is on exactly one chain. No panic but the one of a first
process that exits can be the next step. -/
theorem mlf_invariant {s : Sched} (run : s.Reached) :
    (∃ chain : Queues,
      (∀ l, Linked (fun p => (s.table.proc p).next) (s.table.mlf l).first (chain l) ∧
        (s.table.mlf l).last = (chain l).getLast? ∧ (chain l).Nodup ∧
        ∀ p ∈ chain l, (s.table.proc p).state = .runnable ∧ (s.table.proc p).priority = l) ∧
      ∀ p, (s.table.proc p).state = .runnable → ∃! l, p ∈ chain l) ∧
    ∀ a e, a.InRange → s.step a = .error e → e = .initExiting := by
  have inv := run.inv
  have mlf := inv.mlf
  refine ⟨⟨replay s.table.history, fun l => ?_, fun p hp => ?_⟩, fun a e range he => ?_⟩
  · have q := mlf.queue l
    exact ⟨q.linked, q.last_eq, q.nodup, fun p hp => (mlf.member p l).mp hp⟩
  · exact ⟨⟨(s.table.proc p).priority, mlf.level p hp⟩, (mlf.member p _).mpr ⟨hp, rfl⟩,
      fun k hk => Fin.ext ((mlf.member p k).mp hk).2.symm⟩
  · exact ((inv.step a fun _ => range.storesLevel).of_error he).resolve_right fun out =>
      out.2 trivial

/-- The first process forks and yields: the child heads level 0, the parent level 1. -/
theorem mlf_invariant_after_fork :
    ∃ s : Sched, s.Reached ∧ (s.table.mlf 0).first = some 1 ∧ (s.table.mlf 1).first = some 0 ∧
      ∃ chain : Queues, ∀ l, Linked (fun p => (s.table.proc p).next) (s.table.mlf l).first
        (chain l) := by
  have start : Sched.initial.Reached := .start rfl
  obtain ⟨s, run, heads⟩ := start.exists_of_follow
    [.dispatch, .forkClaim 0, .forkStack 0 true, .forkCopy 0 true, .setpriority 0 0, .yield 0]
    (fun s : Sched => (s.table.mlf 0).first = some 1 ∧ (s.table.mlf 1).first = some 0) (by decide)
  simp only [decide_eq_true_eq] at heads
  obtain ⟨⟨chain, shape, _⟩, _⟩ := mlf_invariant run
  exact ⟨s, run, heads.1, heads.2, chain, fun l => (shape l).1⟩

/-- As long as every setpriority leaves a level in the ushort, every priority indexes
the MLF and no step runs past its array. A process that stores anything else breaks
this at once. -/
theorem priorities_in_range {s : Sched}
    (run : Reaches Sched.step (fun _ a => a.StoresLevel) (· = Sched.initial) s) :
    (∀ p, (s.table.proc p).priority < MLFLEVELS) ∧
    (∀ a, s.step a ≠ .error .mlfOutOfBounds) ∧
    ∀ p level t, s.Free p → s.step (.setpriority p level) = .ok t →
      ((∀ q, (t.table.proc q).priority < MLFLEVELS) ↔ level % 2 ^ 16 < MLFLEVELS) := by
  have inv : SchedInv True s := .of_run (fun _ _ _ stores => stores) run
  refine ⟨inv.mlf.inRange trivial, fun a => ?_, fun p level t free ht => ?_⟩
  · intro failed
    by_cases range : a.StoresLevel
    · rcases (inv.step a fun _ => range).of_error failed with first | out
      · cases first
      · exact out.2 trivial
    · -- only setpriority is restricted, and it never fails
      cases a with
      | setpriority p level => cases failed
      | _ => exact range trivial
  · simp only [Sched.step, if_pos free] at ht
    cases Except.ok.inj ht
    constructor
    · intro all
      have here := all p
      simp only [setpriority, Ptable.modify_self] at here
      omega
    · exact fun range => (inv.setpriority free.1 fun _ => range).mlf.inRange trivial

/-- setpriority(1) and a yield: the process waits at level 2. -/
theorem priorities_in_range_lowered :
    ∃ s : Sched, (∀ p, (s.table.proc p).priority < MLFLEVELS) ∧ (s.table.proc 0).priority = 2 := by
  have start : Sched.initial.Reached := .start rfl
  obtain ⟨s, run, lowered⟩ := start.exists_of_follow [.dispatch, .setpriority 0 1, .yield 0]
    (fun s : Sched => (s.table.proc 0).priority = 2) (by decide)
  simp only [decide_eq_true_eq] at lowered
  exact ⟨s, (priorities_in_range (run.mono fun _ _ range => range.storesLevel)).1, lowered⟩

/-- setpriority(4) is accepted, and the yield of the next tick indexes mlf[4]. -/
theorem setpriority_four_leaves_array :
    ∃ s : Sched, Reaches Sched.step (fun _ _ => True) (· = Sched.initial) s ∧
      (s.table.proc 0).priority = 4 ∧ s.step (.yield 0) = .error .mlfOutOfBounds := by
  have start : Reaches Sched.step (fun _ _ => True) (· = Sched.initial) Sched.initial := .start rfl
  obtain ⟨s, run, four⟩ := start.exists_of_follow [.dispatch, .setpriority 0 4]
    (fun s : Sched => (s.table.proc 0).priority = 4 ∧ (s.table.proc 0).state = .running) (by decide)
  simp only [decide_eq_true_eq] at four
  refine ⟨s, run, four.1, ?_⟩
  simp [Sched.step, four.1, four.2, Sched.withTable, yield, lower, makeRunnable, mlfLevel,
    MLFLEVELS, bind, Except.bind]

end MmapXv6
