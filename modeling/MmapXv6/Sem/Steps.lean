import MmapXv6.Sem.Invariant

/-! Every step of the semaphore machine keeps the invariant, and the only panic it can
end in is the one of a first process that exits. -/
namespace MmapXv6

open Lib
open Function (update_eq_self update_of_ne update_self)

def Sound (r : Except Panic SemSystem) : Prop :=
  (∃ t, r = .ok t ∧ SemInv t) ∨ r = .error .initExiting

section Helpers
variable {s : SemSystem} {p : Slot}

theorem Sound.ok {t : SemSystem} (h : SemInv t) : Sound (.ok t) := .inl ⟨t, rfl, h⟩

theorem not_sleeps_of_running (running : (s.proc p).state = .running) (i : SemId) :
    ¬ s.SleepsOn p i :=
  fun asleep => by cases running.symm.trans asleep.1

theorem no_child_of_free (free : s.sched.Free p) {np : Slot} : ¬ Holds (s.sched.fork p) np := by
  rw [free.2]
  exact not_holds_out np

theorem store_view : s.store p (s.view p) = s := by
  have same : s.sched.table.modify p (fun q => { q with osemaphore := (s.proc p).osemaphore }) =
      s.sched.table := by
    unfold Ptable.modify SemSystem.proc
    rw [update_eq_self]
  unfold SemSystem.store SemSystem.setOsem SemSystem.view
  rw [same]

theorem SemInv.onSched (h : SemInv s) {a : SchedAct} (range : a.InRange)
    (exits : ∀ q, a = .exit q → s.pc q = .user ∧ ∀ k, s.entries (q, k) = none)
    (sleeps : ∀ q i, a = .sleep q (.sem i) → s.pc q = .sleepOne i)
    (undoes : ∀ q, a = .forkStack q false ∨ a = .forkCopy q false → (s.pc q).dupFrom = 0) :
    (∃ t, s.sched.step a = .ok t ∧ s.onSched a = .ok { s with sched := t } ∧
      SemInv { s with sched := t }) ∨
      s.onSched a = .error .initExiting := by
  cases step : s.sched.step a with
  | ok t =>
    exact .inl ⟨t, rfl, by rw [SemSystem.onSched, step]; rfl,
      h.sched_step step range exits sleeps undoes⟩
  | error e =>
    rcases (h.sched.step a fun _ => range.storesLevel).of_error step with rfl | ⟨-, outside⟩
    · exact .inr (by rw [SemSystem.onSched, step]; rfl)
    · exact absurd trivial outside

theorem Sound.bind {r : Except Panic SemSystem} {f : SemSystem → SemSystem}
    (h : (∃ t, r = .ok t ∧ SemInv (f t)) ∨ r = .error .initExiting) :
      Sound (do let t ← r; return f t) := by
  rcases h with ⟨t, rfl, inv⟩ | rfl
  · exact .ok inv
  · exact .inr rfl

end Helpers

section Steps
variable {s : SemSystem} {p : Slot}

theorem SemInv.sched_act (h : SemInv s) {a : SchedAct} (range : a.InRange) (admits : s.Admits a) :
    Sound (s.onSched a) := by
  have result := h.onSched range (fun q e => by subst e; exact admits.elim)
    (fun q i e => by subst e; exact absurd rfl (admits.2 i))
    (fun q e => by
      rcases e with e | e <;> subst e
      · rw [show s.pc q = .user from admits]; rfl
      · rw [admits.1]; rfl)
  exact result.imp (fun ⟨t, _, eq, inv⟩ => ⟨_, eq, inv⟩) (·)

theorem SemInv.semget (h : SemInv s) (free : s.Free p) (semid initvalue : Int) :
    SemInv (s.semget p semid initvalue) := by
  have running : (s.proc p).state = .running := free.1.1
  have present : (s.proc p).state ≠ .unused ∧ (s.proc p).state ≠ .zombie := by rw [running]; decide
  have unclaimed : ∀ q, ¬ Holds (s.sched.fork q) p := fun q held => by
    cases running.symm.trans (h.sched.embryo q p held)
  have closing : ∀ j, s.pc p ≠ .closing j := fun j e => by cases free.2.symm.trans e
  have fits := semgetPlan_fits (s.view p) semid
  unfold SemSystem.semget MmapXv6.semget
  cases plan : semgetPlan (s.view p) semid <;> rw [plan] at fits <;> dsimp only
  case failed code => rw [store_view]; exact h
  case created k i =>
    have unheld : ∀ q, (s.pc q).downOn ≠ some i := by
      intro q down
      obtain ⟨m, entry⟩ := h.entry_of_down down
      have := h.references_pos entry
      have zero : (s.sem i).references = 0 := fits.2
      omega
    have fresh : SemInv
        { s with sem := setSem s.sem i (fun x => { x with id := i, value := initvalue }) } :=
      h.revalue rfl (fun positive => by have zero : (s.sem i).references = 0 := fits.2; omega)
        (fun q pc => absurd (by rw [pc]; rfl) (unheld q)) (fun q down => absurd down (unheld q))
    exact (fresh.opened (p := p) (k := k) (i := i) fits.1 (by simp) present
      (fun q held => absurd held (unclaimed q)) (fun j e => absurd e (closing j))).record _
  case opened k i =>
    exact h.opened fits.1 (h.ids i fits.2) present (fun q held => absurd held (unclaimed q))
      (fun j e => absurd e (closing j))

theorem SemInv.semfree (h : SemInv s) (free : s.Free p) (semid : Int) :
    SemInv (s.store p (semfree (s.view p) semid).2) := by
  unfold MmapXv6.semfree
  split
  · rw [store_view]; exact h
  · rename_i k i found
    split
    · rw [store_view]; exact h
    · exact h.closed (searchinprocess_some found) (by rw [free.2]; rfl)

theorem SemInv.semdown (h : SemInv s) (free : s.Free p) (unlocked : s.stableLock = none)
    (semid : Int) : SemInv (s.semdown p semid) := by
  unfold SemSystem.semdown
  split
  · exact h
  · rename_i k i found
    have running : (s.proc p).state = .running := free.1.1
    refine h.move (l := some p) (m := s.ptableLock) (fun _ => .inl running)
      (fun j asleep => absurd asleep (not_sleeps_of_running running j))
      (fun np held => absurd held (no_child_of_free free.1)) (fun q _ has => ?_)
        (fun _ _ => h.ptable_owner)
      (fun j e => by cases free.2.symm.trans e) ⟨⟨k, searchinprocess_some found⟩, rfl⟩
    cases unlocked.symm.trans (h.stable_owner has)

theorem SemInv.downTest (h : SemInv s) : SemInv (s.downTest p) := by
  unfold SemSystem.downTest
  split
  · rename_i i pc
    have promise := h.promise p
    rw [pc] at promise
    have live := h.busy p (by rw [pc]; exact SemPc.noConfusion)
    have awake : ∀ t : SemSystem, t.sched = s.sched → ∀ j, ¬ t.SleepsOn p j := by
      intro t same j asleep
      have here : s.SleepsOn p j := by
        unfold SemSystem.SleepsOn SemSystem.proc at asleep ⊢
        rwa [same] at asleep
      rcases h.sleeper p j here with e | e <;> cases pc.symm.trans e
    have child : ∀ np, Holds (s.sched.fork p) np → ∀ k : Fin MAXPROCSEM, 0 ≤ (k : Nat) →
        s.entries (np, k) = none :=
      fun np held k _ => h.claimed p np held k (by rw [pc]; exact Nat.zero_le _)
    split
    · rename_i low
      split
      · rename_i free
        refine h.move (l := s.stableLock) (m := some p) (fun _ => live)
          (fun j asleep => absurd asleep (awake s rfl j))
          child (fun _ _ => h.stable_owner) (fun q _ has => ?_)
          (fun j e => by cases pc.symm.trans e) ⟨promise.1, promise.2, rfl, low⟩
        cases free.symm.trans (h.ptable_owner has)
      · exact h
    · rename_i positive
      have taken : SemInv { s with sem := semdownValue s.sem i } := by
        refine h.revalue rfl (fun _ => rfl) (fun q both => ?_) (fun q _ left => .inl ?_)
        · have low := h.promise q
          rw [both] at low
          have := low.2.2.2
          simp only
          omega
        · simp only at left
          omega
      refine (taken.record (i := i) (fun x => { x with downs := (s.proc p).pid :: x.downs })).move
        (l := none) (m := s.ptableLock) (fun e => absurd rfl e)
        (fun j asleep => absurd asleep (awake _ rfl j)) child (fun q ne has => ?_)
          (fun _ _ => h.ptable_owner)
        (fun j e => by cases pc.symm.trans e) trivial
      exact absurd (Option.some.inj ((h.stable_owner has).symm.trans promise.2)) ne
  · exact h

theorem SemInv.sleepRelease (h : SemInv s) : SemInv (s.sleepRelease p) := by
  unfold SemSystem.sleepRelease
  split
  · rename_i i pc
    have promise := h.promise p
    rw [pc] at promise
    refine h.move (l := none) (m := s.ptableLock)
      (fun _ => h.busy p (by rw [pc]; exact SemPc.noConfusion))
      (fun j asleep => ?_) (fun np held k _ =>
        h.claimed p np held k (by rw [pc]; exact Nat.zero_le _))
      (fun q ne has => ?_) (fun _ _ => h.ptable_owner) (fun j e => by cases pc.symm.trans e)
      ⟨promise.1, promise.2.2.1, fun positive => absurd promise.2.2.2 (not_le.mpr positive)⟩
    · rcases h.sleeper p j asleep with e | e <;> cases pc.symm.trans e
    · exact absurd (Option.some.inj ((h.stable_owner has).symm.trans promise.2.1)) ne
  · exact h

theorem SemInv.sleepSwitch (h : SemInv s) : Sound (s.sleepSwitch p) := by
  unfold SemSystem.sleepSwitch
  split
  · rename_i i pc
    split
    · refine Sound.bind (f := fun t => { t with ptableLock := none }.goto p (.asleep i)) ?_
      refine (h.onSched (a := .sleep p (.sem i)) trivial (fun q e => by cases e)
        (fun q j e => by cases e; exact pc)
        (fun q e => by rcases e with e | e <;> cases e)).imp
          (fun ⟨t, step, eq, inv⟩ => ⟨_, eq, ?_⟩) (·)
      have promise := inv.promise p
      rw [show ({ s with sched := t } : SemSystem).pc p = .sleepOne i from pc] at promise
      refine inv.move (l := s.stableLock) (m := none)
        (fun _ => inv.busy p (by rw [pc]; exact SemPc.noConfusion))
        (fun j asleep => .inl ?_)
        (fun np held k _ => inv.claimed p np held k (by rw [pc]; exact Nat.zero_le _))
        (fun _ _ => inv.stable_owner) (fun q ne has => ?_) (fun j e => by cases pc.symm.trans e)
        ⟨promise.1, fun _ positive => ?_⟩
      · rcases inv.sleeper p j asleep with e | e <;> cases pc.symm.trans e
        rfl
      · exact absurd (Option.some.inj ((inv.ptable_owner has).symm.trans promise.2.1)) ne
      · obtain ⟨q, due⟩ := promise.2.2 positive
        have ne : q ≠ p := by rintro rfl; cases pc.symm.trans due
        exact ⟨q, (update_of_ne ne _ _).trans due⟩
    · exact .ok h
  · exact .ok h

theorem SemInv.reacquire (h : SemInv s) : SemInv (s.reacquire p) := by
  unfold SemSystem.reacquire
  split
  · rename_i i pc
    have promise := h.promise p
    rw [pc] at promise
    split
    · rename_i ready
      refine h.move (l := some p) (m := s.ptableLock) (fun _ => .inl ready.1)
        (fun j asleep => absurd asleep (not_sleeps_of_running ready.1 j))
        (fun np held k _ => h.claimed p np held k (by rw [pc]; exact Nat.zero_le _))
        (fun q _ has => ?_)
        (fun _ _ => h.ptable_owner) (fun j e => by cases pc.symm.trans e) ⟨promise.1, rfl⟩
      cases ready.2.symm.trans (h.stable_owner has)
    · exact h
  · exact h

theorem SemInv.semup (h : SemInv s) (free : s.Free p) (unlocked : s.stableLock = none)
    (semid : Int) : SemInv (s.semup p semid) := by
  unfold SemSystem.semup
  split
  · exact h
  · rename_i k i found
    have running : (s.proc p).state = .running := free.1.1
    have moved : SemInv (s.goto p (.upWake i)) :=
      h.goto (fun _ => .inl running)
        (fun j asleep => absurd asleep (not_sleeps_of_running running j))
        (fun np held => absurd held (no_child_of_free free.1))
          (fun j e => by cases free.2.symm.trans e) trivial
    -- stable.lock is free, so nobody stands between its test and its sleep
    have raised : SemInv { s.goto p (.upWake i) with sem := semupValue s.sem i } := by
      refine moved.revalue rfl (fun _ => rfl) (fun q both => ?_)
        (fun q _ _ => .inr ⟨p, update_self _ _ _⟩)
      have owner := moved.stable_owner (p := q) (by rw [both]; rfl)
      cases unlocked.symm.trans owner
    exact raised.record (i := i) (fun x => { x with ups := (s.proc p).pid :: x.ups })

theorem wakeup_step_wakes {u t : Sched} {c : Chan} (step : u.step (.wakeup c) = .ok t) (q : Slot) :
    ¬ ((t.table.proc q).state = .sleeping ∧ (t.table.proc q).chan = some c) := by
  rintro ⟨asleep, on⟩
  rw [Sched.step, Sched.withTable, bind_ok] at step
  obtain ⟨v, hv, step⟩ := step
  cases step
  exact wakeup1_wakes hv q ((wakeup1_kept hv q).chan.symm.trans on) asleep

theorem SemInv.upWakeup (h : SemInv s) : Sound (s.upWakeup p) := by
  unfold SemSystem.upWakeup
  split
  · rename_i i pc
    split
    · rename_i ready
      apply Sound.bind (f := fun t => t.goto p .user)
      refine (h.onSched (a := .wakeup (.sem i)) trivial (fun q e => by cases e)
        (fun q j e => by cases e)
        (fun q e => by rcases e with e | e <;> cases e)).imp
          (fun ⟨t, step, eq, inv⟩ => ⟨_, eq, ?_⟩) (·)
      refine inv.goto (fun e => absurd rfl e) (fun j asleep => ?_)
        (fun np held k _ => inv.claimed p np held k (by rw [pc]; exact Nat.zero_le _))
          (fun j e q => ⟨?_, fun one => ?_⟩)
        trivial
      · rcases inv.sleeper p j asleep with e | e <;> cases pc.symm.trans e
      · cases pc.symm.trans e
        exact wakeup_step_wakes step q
      · cases ready.2.symm.trans (inv.ptable_owner (p := q) (by rw [one]; rfl))
    · exact .ok h
  · exact .ok h

theorem semdup_ok (h : SemInv s) (i : SemId) :
    semdup s.sem i = .ok (setSem s.sem i (fun x => { x with references := x.references + 1 })) := by
  have := h.refs i
  unfold semdup
  rw [if_neg (by omega)]

theorem semclose_ok (h : SemInv s) {x : Slot × Fin MAXPROCSEM} {i : SemId}
    (entry : s.entries x = some i) :
    semclose s.sem i =
      .ok (setSem s.sem i (fun x => { x with references := x.references - 1 })) := by
  have := h.references_pos entry
  unfold semclose
  rw [if_neg (by omega)]

theorem SemInv.dupOne (h : SemInv s) (running : (s.proc p).state = .running) {np : Slot}
    (ready : s.sched.fork p = .ready np) (k : Fin MAXPROCSEM) (pc : s.pc p = .dup k) :
    ∃ t, s.dupOne p np k = .ok t ∧ SemInv (t.goto p (.dup (k + 1))) := by
  have held : Holds (s.sched.fork p) np := .inr ready
  have embryo : (s.proc np).state = .embryo := h.sched.embryo p np held
  have moved : SemInv (s.goto p (.dup (k + 1))) :=
    h.goto (fun _ => .inl running) (fun j asleep => absurd asleep (not_sleeps_of_running running j))
      (fun n hn m from_ => h.claimed p n hn m (by rw [pc]; exact Nat.le_of_succ_le from_))
      (fun j e => by cases pc.symm.trans e) trivial
  unfold SemSystem.dupOne
  split
  · exact ⟨s, rfl, moved⟩
  · rename_i i entry
    have free : s.entries (np, k) = none := h.claimed p np held k (by rw [pc]; exact Nat.le_refl _)
    rw [semdup_ok h i]
    refine ⟨_, rfl, ?_⟩
    refine moved.opened (p := np) (k := k) (i := i) free (h.ids i
      (h.references_pos (x := (p, k)) entry)) ?_
      (fun q hq => ?_) (fun j e => ?_)
    · rw [show ((s.goto p (.dup (k + 1))).proc np).state = .embryo from embryo]; decide
    · rw [h.sched.owner q p np hq held, show (s.goto p (.dup (k + 1))).pc p = .dup (k + 1)
        from update_self _ _ _]
      exact Nat.lt_succ_self _
    · cases (moved.user_of_claimed (p := p) held).symm.trans e

theorem forkCopy_out {u t : Sched} {np : Slot} (running : (u.table.proc p).state = .running)
    (ready : u.fork p = .ready np) (step : u.step (.forkCopy p true) = .ok t) :
    t.fork p = .out := by
  simp only [Sched.step, if_pos running, Sched.finishFork, ready, if_true, bind_ok] at step
  obtain ⟨v, _, step⟩ := step
  cases step
  exact update_self _ _ _

theorem SemInv.forkDup (h : SemInv s) (running : (s.proc p).state = .running) :
    Sound (s.forkDup p) := by
  have awake := not_sleeps_of_running running
  unfold SemSystem.forkDup
  split
  · rename_i np ready pc
    refine .ok (h.goto (fun _ => .inl running) (fun j asleep => absurd asleep (awake j))
      (fun n hn m _ => h.claimed p n hn m (by rw [pc]; exact Nat.zero_le _))
        (fun j e => by cases pc.symm.trans e) trivial)
  · rename_i np k ready pc
    split
    · rename_i bound
      split
      · obtain ⟨t, ht, inv⟩ := h.dupOne running ready ⟨k, bound⟩ pc
        rw [ht]
        exact .ok inv
      · exact .ok h
    · split
      · apply Sound.bind (f := fun t => t.goto p .user)
        refine (h.onSched (a := .forkCopy p true) trivial (fun q e => by cases e)
          (fun q j e => by cases e)
          (fun q e => by rcases e with e | e <;> cases e)).imp
            (fun ⟨t, step, eq, inv⟩ => ⟨_, eq, ?_⟩) (·)
        refine inv.goto (fun e => absurd rfl e) (fun j asleep => ?_) (fun n hn => ?_)
          (fun j e => by cases pc.symm.trans e) trivial
        · rcases inv.sleeper p j asleep with e | e <;> cases pc.symm.trans e
        · have out : ({ s with sched := t } : SemSystem).sched.fork p = .out :=
            forkCopy_out running ready step
          rw [out] at hn
          exact absurd hn (not_holds_out n)
      · exact .ok h
  · exact .ok h

theorem SemInv.closeOne (h : SemInv s) (running : (s.proc p).state = .running) (k : Fin MAXPROCSEM)
    (pc : s.pc p = .closing k) : ∃ t, s.closeOne p k = .ok t ∧
      SemInv (t.goto p (.closing (k + 1))) := by
  have old := h.promise p
  rw [pc] at old
  have finish : ∀ t, SemInv t → t.sched.fork = s.sched.fork → t.pc = s.pc →
      (t.proc p).state = .running →
      t.entries (p, k) = none → (∀ m : Fin MAXPROCSEM, m < (k : Nat) → t.entries (p, m) = none) →
      SemInv (t.goto p (.closing (k + 1))) := by
    intro t inv fork pcs run none below
    refine inv.goto (fun _ => .inl run)
      (fun j asleep => absurd asleep (not_sleeps_of_running run j))
      (fun n hn m _ => inv.claimed p n hn m (by rw [pcs, pc]; exact Nat.zero_le _))
      (fun j e => by rw [pcs] at e; cases pc.symm.trans e) (fun m hm => ?_)
    rcases Nat.lt_or_eq_of_le (Nat.le_of_lt_succ hm) with lt | eq
    · exact below m lt
    · exact (Fin.ext eq : m = k) ▸ none
  unfold SemSystem.closeOne
  split
  · rename_i empty
    exact ⟨s, rfl, finish s h rfl rfl running empty old⟩
  · rename_i i entry
    rw [semclose_ok h (x := (p, k)) entry]
    refine ⟨_, rfl, ?_⟩
    have entries := setOsem_entries (s := s) (p := p) (k := k) none
    have closed := h.closed (p := p) (k := k) entry (by rw [pc]; rfl)
    refine finish _ closed rfl rfl ?_ ?_ (fun m hm => ?_)
    · exact (setOsem_state p _).1.trans running
    · exact (congrFun entries (p, k)).trans (update_self _ _ _)
    · apply (congrFun entries (p, m)).trans
      rw [update_of_ne (by rintro e; cases e; exact lt_irrefl _ hm)]
      exact old m hm

theorem SemInv.exitClose (h : SemInv s) : Sound (s.exitClose p) := by
  unfold SemSystem.exitClose
  split
  · rename_i pc
    split
    · rename_i free
      split
      · exact .inr rfl
      · exact .ok (h.goto (fun _ => .inl free.1)
          (fun j asleep => absurd asleep (not_sleeps_of_running free.1 j))
          (fun np held => absurd held (no_child_of_free free)) (fun j e => by cases pc.symm.trans e)
          (fun m hm => absurd hm (Nat.not_lt_zero _)))
    · exact .ok h
  · rename_i k pc
    split
    · rename_i running
      split
      · rename_i bound
        split
        · obtain ⟨t, ht, inv⟩ := h.closeOne running ⟨k, bound⟩ pc
          rw [ht]
          exact .ok inv
        · exact .ok h
      · rename_i past
        split
        · have old := h.promise p
          rw [pc] at old
          have moved : SemInv (s.goto p .user) :=
            h.goto (fun e => absurd rfl e)
              (fun j asleep => absurd asleep (not_sleeps_of_running running j))
              (fun n hn m _ => h.claimed p n hn m (by rw [pc]; exact Nat.zero_le _))
              (fun j e => by cases pc.symm.trans e) trivial
          have closed : ∀ q, SchedAct.exit p = .exit q →
              (s.goto p .user).pc q = .user ∧ ∀ m, (s.goto p .user).entries (q, m) = none := by
            intro q e
            cases e
            exact ⟨update_self _ _ _, fun m => old m (by omega)⟩
          apply Sound.bind (f := fun t => t.goto p .user)
          -- the move to user mode commutes with the scheduler step
          rcases moved.onSched (a := .exit p) trivial closed (fun q j e => by cases e)
            (fun q e => by rcases e with e | e <;> cases e) with ⟨t, step, _, inv⟩ | failed
          · exact .inl ⟨{ s with sched := t }, by rw [SemSystem.onSched,
              show s.sched.step _ = _ from step]; rfl, inv⟩
          · refine .inr ?_
            rw [SemSystem.onSched, bind_error] at failed ⊢
            rcases failed with failed | ⟨_, _, e⟩
            · exact .inl failed
            · cases e
        · exact .ok h
    · exact .ok h
  · exact .ok h

theorem SemInv.step (h : SemInv s) (a : SemAct) (range : a.InRange) : Sound (s.step a) := by
  cases a with
  | sched a =>
    simp only [SemSystem.step]
    split
    · rename_i admits
      exact h.sched_act range admits.1
    · exact .ok h
  | semget p semid initvalue =>
    refine .ok ?_
    split
    · rename_i free
      exact h.semget free.1 semid initvalue
    · exact h
  | semfree p semid =>
    refine .ok ?_
    split
    · rename_i free
      exact h.semfree free.1 semid
    · exact h
  | semdown p semid =>
    refine .ok ?_
    split
    · rename_i free
      exact h.semdown free.1 free.2 semid
    · exact h
  | downTest p => exact .ok h.downTest
  | sleepRelease p => exact .ok h.sleepRelease
  | sleepSwitch p => exact h.sleepSwitch
  | reacquire p => exact .ok h.reacquire
  | semup p semid =>
    refine .ok ?_
    split
    · rename_i free
      exact h.semup free.1 free.2 semid
    · exact h
  | upWakeup p => exact h.upWakeup
  | forkDup p =>
    simp only [SemSystem.step]
    split
    · rename_i running
      exact h.forkDup running
    · exact .ok h
  | exitClose p => exact h.exitClose

end Steps

end MmapXv6
