import MmapXv6.Proc.Moves

/-! The pids of the process table and the flag that kill sets. kill compares the pid
of every slot, and an UNUSED one keeps a pid: 0 after bss or wait, its last number
after a fork that ran out of memory. -/
namespace MmapXv6

open Lib Function

variable {a : SchedAct} {s : Sched}

structure Lives (t u : Ptable) : Prop where
  nextpid : u.nextpid = t.nextpid
  unused : ∀ q, (u.proc q).state = .unused ↔ (t.proc q).state = .unused
  pid : ∀ q, (u.proc q).pid = (t.proc q).pid
  killed : ∀ q, (u.proc q).killed = (t.proc q).killed

@[simp] theorem Ptable.modify_nextpid (t : Ptable) (p : Slot) (f : Proc → Proc) :
    (t.modify p f).nextpid = t.nextpid := rfl

section Lives
variable {t u : Ptable} {p : Slot}

theorem Lives.refl (t : Ptable) : Lives t t := ⟨rfl, fun _ => .rfl, fun _ => rfl, fun _ => rfl⟩

theorem Lives.trans {v : Ptable} (h : Lives t u) (k : Lives u v) : Lives t v where
  nextpid := k.nextpid.trans h.nextpid
  unused q := (k.unused q).trans (h.unused q)
  pid q := (k.pid q).trans (h.pid q)
  killed q := (k.killed q).trans (h.killed q)

theorem Lives.of_proc (proc : u.proc = t.proc) (nextpid : u.nextpid = t.nextpid) : Lives t u :=
  ⟨nextpid, fun q => by rw [proc], fun q => by rw [proc], fun q => by rw [proc]⟩

theorem modify_lives (t : Ptable) (p : Slot) (f : Proc → Proc)
    (unused : (f (t.proc p)).state = .unused ↔ (t.proc p).state = .unused)
    (pid : (f (t.proc p)).pid = (t.proc p).pid)
    (killed : (f (t.proc p)).killed = (t.proc p).killed) : Lives t (t.modify p f) := by
  constructor
  · rfl
  all_goals
    intro q
    by_cases e : q = p
    · subst e; simpa
    · simp [t.modify_ne f e]

theorem Requeued.lives (h : Requeued t p u) (used : (t.proc p).state ≠ .unused) : Lives t u := by
  constructor
  · exact h.nextpid
  all_goals
    intro q
    by_cases e : q = p
    · subst e; simp [h.self, used]
    · obtain ⟨nx, same⟩ := h.other q e
      simp [same]

theorem Lives.of_spared (h : ∀ q, Spared t u q) : Lives t u where
  nextpid := (h 0).nextpid
  unused q := by
    rcases (h q).state with e | ⟨asleep, runnable⟩
    · rw [e]
    · simp [asleep, runnable]
  pid q := (h q).pid
  killed q := (h q).killed

theorem exitLocked_lives (running : (t.proc p).state = .running) (h : exitLocked t p = .ok u) :
    Lives t u := by
  obtain ⟨v, spared, rfl⟩ := exitLocked_frame h
  have before := Lives.of_spared spared
  refine before.trans (modify_lives v p _ ?_ rfl rfl)
  simp [before.unused p, running]

theorem scheduler_lives {r : Option Slot} (h : scheduler t = .ok (r, u)) : Lives t u := by
  rcases scheduler_ok h with ⟨-, rfl⟩ | ⟨q, v, -, runnable, same, ⟨-, pid⟩, rfl⟩
  · exact .refl _
  · refine (Lives.of_proc same pid).trans (modify_lives v q _ ?_ rfl rfl)
    simp [Proc.resume, same, runnable]

theorem yield_lives (running : (t.proc p).state = .running) (h : yield t p = .ok u) :
    Lives t u := by
  have lowered := Lives.of_spared fun q => (lower_calm t p q).toSpared
  refine lowered.trans ((makeRunnable_requeued h).lives ?_)
  simp [lowered.unused, running]

theorem sleep_lives (running : (t.proc p).state = .running) (c : Chan) : Lives t (sleep t p c) :=
  modify_lives t p _ (by simp [running]) rfl rfl

end Lives

inductive LifeStep (a : SchedAct) (s : Sched) (u : Ptable) : Prop where
  | same : Lives s.table u → LifeStep a s u
  | claimed (n : Slot) : (s.table.proc n).state = .unused →
      u = { s.table.modify n (fun q => { q with state := .embryo, pid := s.table.nextpid }) with
        nextpid := s.table.nextpid + 1 } → LifeStep a s u
  | undone (p n : Slot) : Holds (s.fork p) n → a = .forkStack p false ∨ a = .forkCopy p false →
      u = allocprocUndo s.table n → LifeStep a s u
  | reaped (c : Slot) : (s.table.proc c).state = .zombie → u = s.table.modify c Proc.reap →
      LifeStep a s u
  | marked (p q : Slot) (pid : Int) : a = .kill p pid → (s.table.proc q).pid = pid →
      Lives (s.table.modify q fun x => { x with killed := true }) u → LifeStep a s u

section Step
variable {s t : Sched} {p : Slot}

theorem enterFork_life : LifeStep (.forkClaim p) s (s.enterFork p).table := by
  unfold Sched.enterFork
  split
  · exact .same (.refl _)
  · rename_i np u found
    obtain ⟨unused, rfl⟩ := allocproc_some found
    exact .claimed np unused rfl

theorem stackFork_life (got : Bool) : LifeStep (.forkStack p got) s (s.stackFork p got).table := by
  unfold Sched.stackFork
  split
  · rename_i np pc
    cases got with
    | true =>
      exact .same
        (modify_lives s.table np (fun q => { q with priority := 0, age := 0 }) .rfl rfl rfl)
    | false => exact .undone p np (.inl pc) (.inl rfl) rfl
  · exact .same (.refl _)

theorem finishFork_life (inv : SchedInv True s) {got : Bool} (h : s.finishFork p got = .ok t) :
    LifeStep (.forkCopy p got) s t.table := by
  unfold Sched.finishFork at h
  split at h
  · rename_i np pc
    cases got with
    | true =>
      rw [if_pos rfl, bind_ok] at h
      obtain ⟨u, hu, h⟩ := h
      cases Except.ok.inj h
      refine .same ((modify_lives s.table np _ .rfl rfl rfl).trans
        ((makeRunnable_requeued hu).lives ?_))
      simp [inv.embryo p np (.inr pc)]
    | false =>
      cases Except.ok.inj h
      exact .undone p np (.inr pc) (.inr rfl) rfl
  · cases Except.ok.inj h
    exact .same (.refl _)

theorem wait_life (running : (s.table.proc p).state = .running) :
    LifeStep a s (wait s.table p).2 := by
  unfold wait
  split
  · rename_i c found
    have zombie := List.find?_some found
    simp only [decide_eq_true_eq] at zombie
    exact .reaped c zombie.2 rfl
  · split
    · exact .same (.refl _)
    · exact .same (sleep_lives running _)

theorem kill_life {pid r : Int} {u : Ptable} (h : kill s.table pid = .ok (r, u)) :
    LifeStep (.kill p pid) s u := by
  rcases kill_ok h with rfl | ⟨q, found, calm⟩
  · exact .same (.refl _)
  · exact .marked p q pid rfl (by simpa using List.find?_some found)
      (.of_spared fun r => (calm r).toSpared)

theorem Sched.step_life (inv : SchedInv True s) (h : s.step a = .ok t) :
    LifeStep a s t.table := by
  cases a with
  | forkClaim p =>
    cases h
    split
    · exact enterFork_life
    · exact .same (.refl _)
  | forkStack p got =>
    cases h
    split
    · exact stackFork_life got
    · exact .same (.refl _)
  | forkCopy p got =>
    simp only [Sched.step] at h
    split at h
    · exact finishFork_life inv h
    · cases h; exact .same (.refl _)
  | dispatch =>
    simp only [Sched.step, bind_ok] at h
    obtain ⟨r, hr, h⟩ := h
    cases h
    exact .same (scheduler_lives (r := r.1) hr)
  | yield p =>
    simp only [Sched.step] at h
    split at h
    · rename_i running
      rw [Sched.withTable, bind_ok] at h
      obtain ⟨u, hu, h⟩ := h
      cases h
      exact .same (yield_lives running hu)
    · cases h; exact .same (.refl _)
  | sleep p c =>
    cases h
    split
    · rename_i free
      exact .same (sleep_lives free.1 c)
    · exact .same (.refl _)
  | wakeup c =>
    rw [Sched.step, Sched.withTable, bind_ok] at h
    obtain ⟨u, hu, h⟩ := h
    cases h
    exact .same (.of_spared fun q => (wakeup1_calm hu q).toSpared)
  | kill p pid =>
    simp only [Sched.step] at h
    split at h
    · rw [bind_ok] at h
      obtain ⟨r, hr, h⟩ := h
      cases h
      exact kill_life (r := r.1) hr
    · cases h; exact .same (.refl _)
  | exit p =>
    simp only [Sched.step] at h
    split at h
    · rename_i free
      split at h
      · cases h
      · rw [Sched.withTable, bind_ok] at h
        obtain ⟨u, hu, h⟩ := h
        cases h
        exact .same (exitLocked_lives free.1 hu)
    · cases h; exact .same (.refl _)
  | wait p =>
    cases h
    split
    · rename_i free
      exact wait_life free.1
    · exact .same (.refl _)
  | calculateaging =>
    rw [Sched.step, Sched.withTable, bind_ok] at h
    obtain ⟨u, hu, h⟩ := h
    cases h
    exact .same (.of_spared fun q => (calculateaging_calm hu q).toSpared)
  | setpriority p level =>
    cases h
    split
    · have levelled : Lives s.table (setpriority s.table p level) := modify_lives _ p _ .rfl rfl rfl
      exact .same levelled
    · exact .same (.refl _)

end Step

/-- The pid of a process is in no other slot, not even in one that is UNUSED. -/
structure Pids (t : Ptable) : Prop where
  first : 0 < t.nextpid
  below : ∀ q, (t.proc q).pid < t.nextpid
  positive : ∀ q, (t.proc q).state ≠ .unused → 0 < (t.proc q).pid
  distinct : ∀ q r, (t.proc q).state ≠ .unused → (t.proc q).pid = (t.proc r).pid → q = r

section Pids
variable {t u : Ptable}

theorem Pids.lives (h : Pids t) (k : Lives t u) : Pids u where
  first := by rw [k.nextpid]; exact h.first
  below q := by rw [k.nextpid, k.pid]; exact h.below q
  positive q used := by rw [k.pid]; exact h.positive q (mt (k.unused q).mpr used)
  distinct q r used same := by
    rw [k.pid, k.pid] at same
    exact h.distinct q r (mt (k.unused q).mpr used) same

theorem Pids.claim (h : Pids t) (n : Slot) :
    Pids { t.modify n (fun q => { q with state := .embryo, pid := t.nextpid }) with
      nextpid := t.nextpid + 1 } := by
  have first := h.first
  constructor
  · simp only
    omega
  · intro q
    have below := h.below q
    by_cases e : q = n
    · simp only [Ptable.modify, e, update_self]
      omega
    · simp only [Ptable.modify, update_of_ne e]
      omega
  · intro q used
    by_cases e : q = n
    · subst e; simpa [Ptable.modify] using first
    · simp only [Ptable.modify, update_of_ne e] at used ⊢
      exact h.positive q used
  · intro q r used same
    by_cases e : q = n
    · by_cases e' : r = n
      · rw [e, e']
      · -- no slot holds the number that comes next
        have below := h.below r
        simp only [Ptable.modify, e, update_self, update_of_ne e'] at same
        omega
    · by_cases e' : r = n
      · have below := h.below q
        simp only [Ptable.modify, e', update_self, update_of_ne e] at same
        omega
      · simp only [Ptable.modify, update_of_ne e, update_of_ne e'] at used same
        exact h.distinct q r used same

theorem Pids.free (h : Pids t) {n : Slot} {f : Proc → Proc}
    (unused : (f (t.proc n)).state = .unused)
    (pid : (f (t.proc n)).pid = 0 ∨ (f (t.proc n)).pid = (t.proc n).pid) :
    Pids (t.modify n f) := by
  have used_ne : ∀ q, ((t.modify n f).proc q).state ≠ .unused → q ≠ n := by
    rintro q used rfl
    exact used (by simpa using unused)
  refine ⟨h.first, fun q => ?_, fun q used => ?_, fun q r used same => ?_⟩
  · by_cases e : q = n
    · subst e
      rcases pid with zero | kept
      · simpa [zero] using h.first
      · simpa [kept] using h.below q
    · simpa [t.modify_ne f e] using h.below q
  · have e := used_ne q used
    rw [t.modify_ne f e] at used ⊢
    exact h.positive q used
  · have e := used_ne q used
    rw [t.modify_ne f e] at used same
    by_cases e' : r = n
    · subst e'
      rw [t.modify_self] at same
      rcases pid with zero | kept
      · have := h.positive q used
        omega
      · exact h.distinct q r used (same.trans kept)
    · rw [t.modify_ne f e'] at same
      exact h.distinct q r used same

theorem Pids.step (h : Pids s.table) (k : LifeStep a s u) : Pids u := by
  cases k with
  | same lives => exact h.lives lives
  | claimed n _ e => subst e; exact h.claim n
  | undone p n _ _ e =>
    subst e
    exact h.free (n := n) (f := fun q => { q with state := .unused }) rfl (.inr rfl)
  | reaped c _ e => subst e; exact h.free rfl (.inl rfl)
  | marked p q pid _ _ lives =>
    have flagged : Pids (s.table.modify q fun x => { x with killed := true }) := by
      have same : ∀ r, ((s.table.modify q fun x => { x with killed := true }).proc r).state =
          (s.table.proc r).state ∧
            ((s.table.modify q fun x => { x with killed := true }).proc r).pid =
          (s.table.proc r).pid := by
        intro r
        by_cases e : r = q
        · subst e; simp
        · simp [s.table.modify_ne _ e]
      refine ⟨h.first, fun r => ?_, fun r used => ?_, fun r x used eq => ?_⟩
      · rw [(same r).2]; exact h.below r
      · rw [(same r).2]; exact h.positive r (by rwa [(same r).1] at used)
      · rw [(same r).2, (same x).2] at eq
        exact h.distinct r x (by rwa [(same r).1] at used) eq
    exact flagged.lives lives

theorem initial_pids : Pids Sched.initial.table := by
  have init : Sched.initial.table.nextpid = 2 ∧ (Sched.initial.table.proc 0).pid = 1 := by decide
  have others : ∀ q, q ≠ 0 → (Sched.initial.table.proc q).pid = 0 ∧
      (Sched.initial.table.proc q).state = .unused := by decide
  have pid_le : ∀ q, (Sched.initial.table.proc q).pid ≤ 1 := by
    intro q
    by_cases e : q = 0
    · subst e; simp [init]
    · simp [(others q e).1]
  have zero : ∀ q, (Sched.initial.table.proc q).state ≠ .unused → q = 0 :=
    fun q used => by_contra fun ne => used (others q ne).2
  refine ⟨by simp [init.1], fun q => ?_, fun q used => ?_, fun q r used same => ?_⟩
  · have := pid_le q
    omega
  · rw [zero q used, init.2]
    decide
  · rw [zero q used] at same ⊢
    by_contra ne
    rw [init.2, (others r (Ne.symm ne)).1] at same
    cases same

end Pids

/-- What the caller of kill expects: 0 and one flag more if some process has the pid,
else -1 and nothing done. -/
def KillsOnly (t : Ptable) (pid : Int) : Prop :=
  (∀ p, (t.proc p).state ≠ .unused → (t.proc p).pid = pid → ∃ u, kill t pid = .ok (0, u) ∧
    ∀ q, (u.proc q).killed = if q = p then true else (t.proc q).killed) ∧
  ((∀ p, (t.proc p).state ≠ .unused → (t.proc p).pid ≠ pid) → kill t pid = .ok (-1, t))

section KillsOnly
variable {t : Ptable} {pid : Int}

theorem kill_found (mlf : Queued True t) {p : Slot}
    (found : (List.finRange NPROC).find? (fun q => (t.proc q).pid = pid) = some p) :
    ∃ u, kill t pid = .ok (0, u) ∧ Lives (t.modify p fun q => { q with killed := true }) u := by
  cases done : kill t pid with
  | error e => exact absurd trivial ((mlf.kill pid).of_error done).2
  | ok r =>
    rw [kill, found, bind_ok] at done
    obtain ⟨v, hv, e⟩ := done
    cases Except.ok.inj e
    exact ⟨v, rfl, .of_spared fun q => (killFound_calm hv q).toSpared⟩

theorem kill_not_found (absent : ∀ q, (t.proc q).pid ≠ pid) : kill t pid = .ok (-1, t) := by
  have none : (List.finRange NPROC).find? (fun q => (t.proc q).pid = pid) = none := by
    simpa using absent
  rw [kill, none]

theorem killsOnly_iff (pids : Pids t) (mlf : Queued True t) :
    KillsOnly t pid ↔ ∀ q, (t.proc q).state = .unused → (t.proc q).pid ≠ pid := by
  constructor
  · rintro ⟨-, otherwise⟩ q unused same
    have nobody : ∀ p, (t.proc p).state ≠ .unused → (t.proc p).pid ≠ pid := by
      intro p used eq
      have e := pids.distinct p q used (eq.trans same.symm)
      exact used (e ▸ unused)
    -- the search stops at q or before, so kill does not return -1
    cases found : (List.finRange NPROC).find? (fun q => (t.proc q).pid = pid) with
    | none =>
      have absent := List.find?_eq_none.mp found q (List.mem_finRange q)
      simp [same] at absent
    | some p =>
      obtain ⟨u, hu, -⟩ := kill_found mlf found
      rw [otherwise nobody] at hu
      cases Except.ok.inj hu
  · intro clear
    refine ⟨fun p used same => ?_, fun nobody => ?_⟩
    · have found : (List.finRange NPROC).find? (fun q => (t.proc q).pid = pid) = some p := by
        cases found : (List.finRange NPROC).find? (fun q => (t.proc q).pid = pid) with
        | none =>
          have absent := List.find?_eq_none.mp found p (List.mem_finRange p)
          simp [same] at absent
        | some q =>
          have here : (t.proc q).pid = pid := by simpa using List.find?_some found
          rw [pids.distinct p q used (same.trans here.symm)]
      obtain ⟨u, hu, lives⟩ := kill_found mlf found
      refine ⟨u, hu, fun q => ?_⟩
      rw [lives.killed]
      by_cases e : q = p
      · subst e; simp
      · simp [t.modify_ne _ e, e]
    · apply kill_not_found
      intro q
      by_cases unused : (t.proc q).state = .unused
      · exact clear q unused
      · exact nobody q unused

end KillsOnly

/-- No kill names a pid that an UNUSED slot keeps, and a fork that runs out of memory
gives back a slot whose half-made child was not killed. -/
def SchedAct.Aimed (s : Sched) : SchedAct → Prop
  | .kill _ pid => ∀ q, (s.table.proc q).state = .unused → (s.table.proc q).pid ≠ pid
  | .forkStack p false | .forkCopy p false =>
    ∀ n, Holds (s.fork p) n → (s.table.proc n).killed = false
  | .setpriority _ level => level % 2 ^ 16 < MLFLEVELS
  | _ => True

instance decidableHolds (np : Slot) : (pc : ForkPc) → Decidable (Holds pc np)
  | .out => isFalse (not_holds_out np)
  | .claimed n => decidable_of_iff (n = np) (by simp [Holds])
  | .ready n => decidable_of_iff (n = np) (by simp [Holds])

instance (s : Sched) : (a : SchedAct) → Decidable (a.Aimed s)
  | .kill _ pid => inferInstanceAs (Decidable (∀ q, _ → (s.table.proc q).pid ≠ pid))
  | .forkStack p false | .forkCopy p false =>
    inferInstanceAs (Decidable (∀ n, Holds (s.fork p) n → _))
  | .setpriority _ level => inferInstanceAs (Decidable (level % 2 ^ 16 < _))
  | .forkStack _ true | .forkCopy _ true | .forkClaim _ | .dispatch | .yield _ | .sleep _ _
  | .wakeup _ | .exit _ | .wait _ | .calculateaging => isTrue trivial

theorem SchedAct.Aimed.storesLevel (aimed : a.Aimed s) :
    a.StoresLevel := by
  cases a with
  | setpriority p level => exact aimed
  | _ => trivial

def Clean (t : Ptable) : Prop := ∀ q, (t.proc q).state = .unused → (t.proc q).killed = false

theorem Clean.step {u : Ptable} (h : Clean s.table) (aimed : a.Aimed s)
    (k : LifeStep a s u) : Clean u := by
  intro q unused
  cases k with
  | same lives => rw [lives.killed]; exact h q ((lives.unused q).mp unused)
  | claimed n _ e =>
    subst e
    by_cases e : q = n
    · subst e; simp [Ptable.modify] at unused
    · simp only [Ptable.modify, update_of_ne e] at unused ⊢
      exact h q unused
  | undone p n held which e =>
    subst e
    by_cases e : q = n
    · subst e
      have calm : (s.table.proc q).killed = false := by
        rcases which with rfl | rfl
        · exact aimed q held
        · exact aimed q held
      simpa [allocprocUndo] using calm
    · rw [allocprocUndo, s.table.modify_ne _ e] at unused ⊢
      exact h q unused
  | reaped c _ e =>
    subst e
    by_cases e : q = c
    · subst e; simp [Proc.reap]
    · rw [s.table.modify_ne _ e] at unused ⊢
      exact h q unused
  | marked p n pid which here lives =>
    subst which
    rw [lives.killed]
    rw [lives.unused] at unused
    by_cases e : q = n
    · subst e
      exact absurd here (aimed q (by simpa using unused))
    · rw [s.table.modify_ne _ e] at unused ⊢
      exact h q unused

structure KillInv (s : Sched) : Prop extends SchedInv True s where
  pids : Pids s.table
  clean : Clean s.table

theorem KillInv.of_run
    (run : Reaches Sched.step (fun s a => a.Aimed s) (· = Sched.initial) s) : KillInv s := by
  apply Reaches.invariant KillInv _ _ run
  · rintro _ rfl
    exact ⟨initial_inv True, initial_pids, by unfold Clean; decide⟩
  · intro s a t h aimed ht
    have life := Sched.step_life h.toSchedInv ht
    exact ⟨(h.toSchedInv.step a fun _ => aimed.storesLevel).of_ok ht, h.pids.step life,
      h.clean.step aimed life⟩

/-- As long as no kill names a pid left in an UNUSED slot, and no fork fails after its
child was killed, kill does what its caller expects and every process starts with the
flag clear. A pid that is left in an UNUSED slot is always hit. -/
theorem kill_hits_only_live {s : Sched}
    (run : Reaches Sched.step (fun s a => a.Aimed s) (· = Sched.initial) s) :
    (∀ pid, KillsOnly s.table pid ↔
      ∀ q, (s.table.proc q).state = .unused → (s.table.proc q).pid ≠ pid) ∧
    ∀ n u, allocproc s.table = some (n, u) → (u.proc n).killed = false := by
  have inv := KillInv.of_run run
  refine ⟨fun pid => killsOnly_iff inv.pids inv.mlf, fun n u claimed => ?_⟩
  obtain ⟨unused, rfl⟩ := allocproc_some claimed
  simpa [Ptable.modify] using inv.clean n unused

/-- The first process forks and kills its child: pid 2 is hit, pid 3 is nobody's. -/
theorem kill_hits_only_live_child :
    ∃ s : Sched, (s.table.proc 1).killed = true ∧ KillsOnly s.table 2 ∧ KillsOnly s.table 3 := by
  have start : Reaches Sched.step (fun s a => a.Aimed s)
      (· = Sched.initial) Sched.initial := .start rfl
  obtain ⟨s, run, seen⟩ := start.exists_of_follow
    [.dispatch, .forkClaim 0, .forkStack 0 true, .forkCopy 0 true, .kill 0 2]
    (fun s : Sched => (s.table.proc 1).killed = true ∧
      (∀ q, (s.table.proc q).state = .unused → (s.table.proc q).pid ≠ 2) ∧
      ∀ q, (s.table.proc q).state = .unused → (s.table.proc q).pid ≠ 3) (by decide)
  simp only [decide_eq_true_eq] at seen
  have exact_kill := (kill_hits_only_live run).1
  exact ⟨s, seen.1, (exact_kill 2).mpr seen.2.1, (exact_kill 3).mpr seen.2.2⟩

/-- kill(0) returns 0 though no process has pid 0, and the next child is born killed. -/
theorem kill_zero_kills_next_child :
    ∃ s t : Sched, Reaches Sched.step (fun _ _ => True) (· = Sched.initial) s ∧
      (∀ p, (s.table.proc p).state ≠ .unused → (s.table.proc p).pid ≠ 0) ∧
      (∃ u, kill s.table 0 = .ok (0, u)) ∧ s.step (.kill 0 0) = .ok t ∧
      ∃ n u, allocproc t.table = some (n, u) ∧ (u.proc n).killed = true := by
  have start : Reaches Sched.step (fun _ _ => True) (· = Sched.initial) Sched.initial := .start rfl
  obtain ⟨s, run, seen⟩ := start.exists_of_follow [.dispatch]
    (fun s : Sched => (∀ p, (s.table.proc p).state ≠ .unused → (s.table.proc p).pid ≠ 0) ∧
      (kill s.table 0).toOption.any (fun r => r.1 = 0) ∧
      (s.step (.kill 0 0)).toOption.any (fun t => (allocproc t.table).any fun r =>
        (r.2.proc r.1).killed)) (by decide)
  simp only [decide_eq_true_eq] at seen
  obtain ⟨nobody, returned, born⟩ := seen
  cases killed : kill s.table 0 with
  | error e => simp [killed, Except.toOption] at returned
  | ok r =>
    cases stepped : s.step (.kill 0 0) with
    | error e => simp [stepped, Except.toOption] at born
    | ok t =>
      simp only [killed, stepped, Except.toOption, Option.any_some,
        decide_eq_true_eq] at returned born
      cases claimed : allocproc t.table with
      | none => simp [claimed] at born
      | some c =>
        rw [claimed] at born
        have zero : kill s.table 0 = .ok (0, r.2) := killed.trans (by rw [← returned])
        exact ⟨s, t, run, nobody, ⟨r.2, zero⟩, stepped, c.1, c.2, claimed, born⟩

end MmapXv6
