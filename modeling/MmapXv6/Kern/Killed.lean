import MmapXv6.Kern.Blocking

/-! What becomes of a process that was killed. A loop that tests the flag lets it go, so
it comes to sleep again only from a place behind that test, or from semdown, which has
none. -/
namespace MmapXv6

open Lib

variable {c : BlockCall} {pc : BlockPc} {q : Slot} {u : Ptable}

structure Undisturbed (t u : Ptable) : Prop where
  killed : ∀ q, (u.proc q).killed = true → (t.proc q).killed = true
  asleep : ∀ q, (u.proc q).state = .sleeping → (t.proc q).state = .sleeping

section Undisturbed
variable {t u : Ptable} {p : Slot}

theorem Undisturbed.refl (t : Ptable) : Undisturbed t t := ⟨fun _ h => h, fun _ h => h⟩

theorem Undisturbed.trans {v : Ptable} (h : Undisturbed t u) (k : Undisturbed u v) :
    Undisturbed t v :=
  ⟨fun q hq => h.killed q (k.killed q hq), fun q hq => h.asleep q (k.asleep q hq)⟩

theorem Undisturbed.of_spared (h : ∀ q, Spared t u q) : Undisturbed t u :=
  ⟨fun q hq => by rwa [(h q).killed] at hq, fun q hq => (h q).asleep hq⟩

theorem modify_undisturbed (t : Ptable) (p : Slot) (f : Proc → Proc)
    (killed : (f (t.proc p)).killed = true → (t.proc p).killed = true)
    (asleep : (f (t.proc p)).state = .sleeping → (t.proc p).state = .sleeping) :
    Undisturbed t (t.modify p f) := by
  have at_ : ∀ q, (t.modify p f).proc q = if q = p then f (t.proc p) else t.proc q := by
    intro q
    simp [Ptable.modify, Function.update_apply]
  constructor
  · intro q hq
    rw [at_] at hq
    split at hq
    · rename_i e
      exact e ▸ killed hq
    · exact hq
  · intro q hq
    rw [at_] at hq
    split at hq
    · rename_i e
      exact e ▸ asleep hq
    · exact hq

theorem makeRunnable_undisturbed (h : makeRunnable t p = .ok u) : Undisturbed t u := by
  have requeued := makeRunnable_requeued h
  constructor <;> intro q hq <;> by_cases e : q = p
  · subst e; simpa [requeued.self] using hq
  · rwa [(requeued.calm e).killed] at hq
  · subst e; simp [requeued.self] at hq
  · exact (requeued.calm e).asleep hq

theorem wakeup1_undisturbed {c : Option Chan} (h : wakeup1 t c = .ok u) : Undisturbed t u :=
  .of_spared fun q => (wakeup1_calm h q).toSpared

theorem scheduler_undisturbed {r : Option Slot} (h : scheduler t = .ok (r, u)) :
    Undisturbed t u := by
  rcases scheduler_ok h with ⟨-, rfl⟩ | ⟨p, v, -, -, same, -, rfl⟩
  · exact .refl _
  · have taken : Undisturbed t v :=
      ⟨fun q hq => by rwa [same] at hq, fun q hq => by rwa [same] at hq⟩
    exact taken.trans (modify_undisturbed v p _ id (by simp [Proc.resume]))

theorem yield_undisturbed (h : yield t p = .ok u) : Undisturbed t u :=
  (Undisturbed.of_spared fun q => (lower_calm t p q).toSpared).trans (makeRunnable_undisturbed h)

theorem exitLocked_undisturbed (h : exitLocked t p = .ok u) : Undisturbed t u := by
  obtain ⟨v, spared, rfl⟩ := exitLocked_frame h
  exact (Undisturbed.of_spared spared).trans (modify_undisturbed v p _ id (by simp))

theorem calculateaging_undisturbed (h : calculateaging t = .ok u) : Undisturbed t u :=
  .of_spared fun q => (calculateaging_calm h q).toSpared

theorem fork_undisturbed {v : Ptable} {np : Slot} (found : allocproc t = some (np, u))
    (h : forkQueue (allocprocSetup u np) p np = .ok v) : Undisturbed t v := by
  have claimed : Undisturbed t u := by
    obtain ⟨-, rfl⟩ := allocproc_some found
    have made :=
      modify_undisturbed t np (fun q => { q with state := .embryo, pid := t.nextpid }) id (by simp)
    exact ⟨made.killed, made.asleep⟩
  have setup : Undisturbed u (allocprocSetup u np) := modify_undisturbed u np _ id id
  have child : Undisturbed (allocprocSetup u np) ((allocprocSetup u np).modify np fun q =>
      { q with parent := some p }) := modify_undisturbed _ np _ id id
  exact ((claimed.trans setup).trans child).trans (makeRunnable_undisturbed h)

theorem wait_undisturbed (t : Ptable) (p : Slot) :
    (∃ r, r ≠ .asleep ∧ wait t p = (r, (wait t p).2) ∧ Undisturbed t (wait t p).2) ∨
      ((t.proc p).killed = false ∧ wait t p = (.asleep, sleep t p (.proc p))) := by
  unfold wait
  split
  · rename_i c found
    refine .inl ⟨_, by simp, rfl, ?_⟩
    exact modify_undisturbed t c _ (by simp [Proc.reap]) (by simp [Proc.reap])
  · split
    · exact .inl ⟨_, by simp, rfl, .refl t⟩
    · rename_i stays
      exact .inr ⟨by simpa using (not_or.mp stays).2, rfl⟩

end Undisturbed

/-- The process will sleep in one of these calls without another look at its flag. -/
def BlockPc.Deaf : BlockPc → Prop
  | .told .. | .switch _ | .loop (.semdown _) | .asleep (.semdown _) => True
  | _ => False

instance : (pc : BlockPc) → Decidable pc.Deaf
  | .told .. | .switch _ => isTrue trivial
  | .loop c => match c with
    | .semdown _ => isTrue trivial
    | .pipewrite .. | .piperead .. | .wait | .sleep .. | .consoleread .. | .other => isFalse id
  | .asleep c => match c with
    | .semdown _ => isTrue trivial
    | .pipewrite .. | .piperead .. | .wait | .sleep .. | .consoleread .. | .other => isFalse id
  | .user | .notify _ | .after | .exit => isFalse id

inductive FallsAsleep (s t : Blocking) (q : Slot) : Prop where
  | switch (c : BlockCall) : s.pc q = .switch c → FallsAsleep s t q
  | wait : (s.table.proc q).killed = false → FallsAsleep s t q
  | other (chan : Chan) : ¬ chan.UserWait → (t.table.proc q).chan = some chan → FallsAsleep s t q

def BlockAct.Heard (s : Blocking) : BlockAct → Prop
  | .kill _ pid => ∀ q, (List.finRange NPROC).find? (fun q => (s.table.proc q).pid = pid) = some q →
      ¬ (s.pc q).Deaf
  | _ => True

instance decidableHeard (s : Blocking) : (a : BlockAct) → Decidable (a.Heard s)
  | .kill .. => inferInstanceAs (Decidable (∀ _, _ → ¬ _))
  | .syscall .. | .interrupt _ | .fault _ | .run _ | .finish _ | .fork _ | .sleepOn .. | .shared _
  | .wakeup _ | .dispatch | .yield _ | .calculateaging => isTrue trivial

def AllHear (s : Blocking) : Prop := ∀ p, (s.table.proc p).killed = true → ¬ (s.pc p).Deaf

section Step
variable {s t : Blocking} {p : Slot}

theorem AllHear.table (h : AllHear s) (k : Undisturbed s.table u) :
    AllHear { s with table := u } := fun q killed => h q (k.killed q killed)

theorem AllHear.sleep (h : AllHear s) (p : Slot) (c : Chan) :
    AllHear { s with table := MmapXv6.sleep s.table p c } := by
  intro q killed
  refine h q ?_
  by_cases e : q = p
  · subst e
    simpa [MmapXv6.sleep] using killed
  · simpa [MmapXv6.sleep, s.table.modify_ne _ e] using killed

theorem AllHear.goto (h : AllHear s)
    (hears : (s.table.proc p).killed = true → ¬ pc.Deaf) : AllHear (s.goto p pc) := by
  intro q killed
  by_cases e : q = p
  · subst e
    simpa [Blocking.goto] using hears killed
  · simpa [Blocking.goto, e] using h q killed

theorem AllHear.shared (h : AllHear s) (d : Shared) : AllHear { s with shared := d } := h

theorem AllHear.unlessKilled (h : AllHear s) {out : BlockPc} (hears : ¬ out.Deaf) :
    AllHear (s.unlessKilled p out pc) := by
  refine h.goto fun killed => ?_
  rw [if_pos killed]
  exact hears

theorem AllHear.turn (h : AllHear s) (at_ : s.pc p = .loop c) :
    AllHear (s.turn p c) := by
  cases c with
  | semdown x =>
    have alive : (s.table.proc p).killed ≠ true := fun killed => h p killed (by rw [at_]; trivial)
    dsimp only [Blocking.turn]
    split
    · exact h.goto fun killed => absurd killed alive
    · exact AllHear.goto (h.shared _) fun killed => absurd killed alive
  | pipewrite i addr =>
    cases addr with
    | nil => exact h.goto fun _ => id
    | cons b rest =>
      dsimp only [Blocking.turn]
      split
      · split
        · exact h.goto fun _ => id
        · exact h.unlessKilled id
      · exact AllHear.goto (h.shared _) fun _ => id
  | piperead i n =>
    dsimp only [Blocking.turn]
    split
    · exact h.unlessKilled id
    · exact AllHear.goto (h.shared _) fun _ => id
  | wait =>
    dsimp only [Blocking.turn]
    rcases wait_undisturbed s.table p with ⟨r, stays, e, k⟩ | ⟨-, e⟩
    · have h' := h.table k
      rw [e]
      cases r with
      | asleep => exact absurd rfl stays
      | failed | reaped _ _ =>
        exact h'.goto fun _ => id
    · rw [e]
      change AllHear (Blocking.goto { s with table := MmapXv6.sleep s.table p (.proc p) } p
        (.asleep .wait))
      exact (h.sleep _ _).goto fun _ => id
  | sleep ticks0 n =>
    dsimp only [Blocking.turn]
    split
    · exact h.unlessKilled id
    · exact h.goto fun _ => id
  | consoleread target n =>
    cases n with
    | zero => exact h.goto fun _ => id
    | succ n =>
      dsimp only [Blocking.turn]
      split
      · exact h.unlessKilled id
      · split
        · split
          · exact h.goto fun _ => id
          · exact AllHear.goto (h.shared _) fun _ => id
        · refine AllHear.goto (h.shared _) fun _ => ?_
          split <;> exact id
  | other => exact h

theorem AllHear.next (h : AllHear s) (done : s.next p (s.pc p) = .ok t) : AllHear t := by
  cases at_ : s.pc p with
  | user =>
    rw [at_] at done
    cases done
    exact h
  | loop c =>
    rw [at_] at done
    cases done
    exact h.turn at_
  | told i addr =>
    rw [at_, Blocking.next, bind_ok] at done
    obtain ⟨u, woken, done⟩ := done
    cases done
    have k := wakeup1_undisturbed woken
    have deaf : (s.pc p).Deaf := by rw [at_]; trivial
    exact (h.table k).goto fun killed => absurd deaf (h p (k.killed p killed))
  | switch c =>
    rw [at_] at done
    cases done
    have deaf : (s.pc p).Deaf := by rw [at_]; trivial
    have h' := h.sleep p (c.chan p)
    exact h'.goto fun killed => absurd deaf (h' p killed)
  | asleep c =>
    rw [at_] at done
    cases done
    refine h.goto fun killed => ?_
    have hears := h p killed
    rw [at_] at hears
    cases c with
    | semdown x => exact hears
    | _ => exact id
  | notify chan =>
    rw [at_, Blocking.next, bind_ok] at done
    obtain ⟨u, woken, done⟩ := done
    cases done
    exact (h.table (wakeup1_undisturbed woken)).goto fun _ => id
  | after =>
    rw [at_] at done
    cases done
    exact h.unlessKilled id
  | exit =>
    rw [at_] at done
    dsimp only [Blocking.next] at done
    split at done
    · cases done
    · rw [bind_ok] at done
      obtain ⟨u, ended, done⟩ := done
      cases done
      exact h.table (exitLocked_undisturbed ended)

theorem AllHear.kill (h : AllHear s) {pid r : Int}
    (heard : ∀ q, (List.finRange NPROC).find? (fun q => (s.table.proc q).pid = pid) = some q →
      ¬ (s.pc q).Deaf) (done : kill s.table pid = .ok (r, u)) : AllHear { s with table := u } := by
  intro q killed
  rcases kill_ok done with rfl | ⟨p, found, calm⟩
  · exact h q killed
  · by_cases e : q = p
    · exact heard q (e ▸ found)
    · rw [(calm q).killed, s.table.modify_ne _ e] at killed
      exact h q killed

theorem AllHear.step (h : AllHear s) {a : BlockAct} (can : s.Can a) (heard : a.Heard s)
    (done : s.step a = .ok t) : AllHear t := by
  cases a with
  | syscall p c =>
    cases done
    exact h.unlessKilled id
  | interrupt p =>
    cases done
    exact h.unlessKilled id
  | fault p =>
    cases done
    intro q killed
    by_cases e : q = p
    · subst e
      simp [Blocking.goto, BlockPc.Deaf]
    · simp only [Blocking.goto, s.table.modify_ne _ e] at killed
      simpa [Blocking.goto, e] using h q killed
  | run p => exact h.next done
  | finish p =>
    cases done
    exact h.goto fun _ => id
  | fork p =>
    simp only [Blocking.step, Blocking.fork] at done
    split at done
    · cases done
      exact h
    · rename_i np u found
      rw [bind_ok] at done
      obtain ⟨v, queued, done⟩ := done
      cases done
      exact (h.table (fork_undisturbed found queued)).goto fun _ => id
  | kill p pid =>
    simp only [Blocking.step, bind_ok] at done
    obtain ⟨⟨r, u⟩, hu, done⟩ := done
    cases done
    exact h.kill heard hu
  | sleepOn p chan =>
    cases done
    exact h.sleep p chan
  | shared d =>
    cases done
    exact h
  | wakeup chan =>
    rw [Blocking.step, Blocking.withTable, bind_ok] at done
    obtain ⟨u, woken, done⟩ := done
    cases done
    exact h.table (wakeup1_undisturbed woken)
  | dispatch =>
    simp only [Blocking.step, bind_ok] at done
    obtain ⟨⟨r, u⟩, hu, done⟩ := done
    cases done
    exact h.table (scheduler_undisturbed hu)
  | yield p =>
    rw [Blocking.step, Blocking.withTable, bind_ok] at done
    obtain ⟨u, hu, done⟩ := done
    cases done
    exact h.table (yield_undisturbed hu)
  | calculateaging =>
    rw [Blocking.step, Blocking.withTable, bind_ok] at done
    obtain ⟨u, hu, done⟩ := done
    cases done
    exact h.table (calculateaging_undisturbed hu)

theorem sleep_asleep {c : Chan}
    (asleep : ((MmapXv6.sleep u p c).proc q).state = .sleeping) :
    (u.proc q).state = .sleeping ∨ q = p := by
  by_cases e : q = p
  · exact .inr e
  · rw [MmapXv6.sleep, u.modify_ne _ e] at asleep
    exact .inl asleep

theorem turn_asleep
    (asleep : ((s.turn p c).table.proc q).state = .sleeping) :
    (s.table.proc q).state = .sleeping ∨ FallsAsleep s t q := by
  by_cases waits : c = .wait
  · subst waits
    dsimp only [Blocking.turn] at asleep
    rcases wait_undisturbed s.table p with ⟨r, stays, e, k⟩ | ⟨alive, e⟩
    · rw [e] at asleep
      cases r with
      | asleep => exact absurd rfl stays
      | failed | reaped _ _ => exact .inl (k.asleep q asleep)
    · rw [e] at asleep
      rcases sleep_asleep asleep with old | rfl
      · exact .inl old
      · exact .inr (.wait alive)
  · have table : (s.turn p c).table = s.table := by
      cases c with
      | wait => exact absurd rfl waits
      | pipewrite i addr => cases addr <;> (dsimp only [Blocking.turn]; (repeat' split) <;> rfl)
      | consoleread target n => cases n <;> (dsimp only [Blocking.turn]; (repeat' split) <;> rfl)
      | semdown _ | piperead _ _ | sleep _ _ | other =>
        dsimp only [Blocking.turn]
        repeat' split
        all_goals rfl
    rw [table] at asleep
    exact .inl asleep

theorem next_asleep (running : (s.table.proc p).state = .running)
    (done : s.next p (s.pc p) = .ok t) (asleep : (t.table.proc q).state = .sleeping) :
    (s.table.proc q).state = .sleeping ∨ FallsAsleep s t q := by
  cases at_ : s.pc p with
  | user | asleep _ | after =>
    rw [at_] at done
    cases done
    exact .inl asleep
  | loop c =>
    rw [at_] at done
    cases done
    exact turn_asleep asleep
  | told _ _ | notify _ =>
    rw [at_, Blocking.next, bind_ok] at done
    obtain ⟨u, woken, done⟩ := done
    cases done
    exact .inl ((wakeup1_undisturbed woken).asleep q asleep)
  | switch c =>
    rw [at_] at done
    cases done
    rcases sleep_asleep asleep with old | rfl
    · exact .inl old
    · exact .inr (.switch c at_)
  | exit =>
    rw [at_] at done
    dsimp only [Blocking.next] at done
    split at done
    · cases done
    · rw [bind_ok] at done
      obtain ⟨u, ended, done⟩ := done
      cases done
      exact .inl ((exitLocked_undisturbed ended).asleep q asleep)

theorem step_asleep {a : BlockAct} (can : s.Can a) (done : s.step a = .ok t)
    (asleep : (t.table.proc q).state = .sleeping) :
    (s.table.proc q).state = .sleeping ∨ FallsAsleep s t q := by
  cases a with
  | syscall _ _ | interrupt _ | finish _ | shared _ =>
    cases done
    exact .inl asleep
  | fault p =>
    cases done
    refine .inl ((modify_kept s.table p (fun x => { x with killed := true }) ⟨rfl, rfl, rfl, rfl⟩
      q).asleep asleep)
  | run p => exact next_asleep can done asleep
  | fork p =>
    simp only [Blocking.step, Blocking.fork] at done
    split at done
    · cases done
      exact .inl asleep
    · rename_i np u found
      rw [bind_ok] at done
      obtain ⟨v, queued, done⟩ := done
      cases done
      exact .inl ((fork_undisturbed found queued).asleep q asleep)
  | kill p pid =>
    simp only [Blocking.step, bind_ok] at done
    obtain ⟨⟨r, u⟩, hu, done⟩ := done
    cases done
    exact .inl ((kill_kept hu q).asleep asleep)
  | sleepOn p chan =>
    cases done
    rcases sleep_asleep asleep with old | rfl
    · exact .inl old
    · exact .inr (.other chan can.2.2 (by simp [MmapXv6.sleep]))
  | wakeup chan =>
    rw [Blocking.step, Blocking.withTable, bind_ok] at done
    obtain ⟨u, woken, done⟩ := done
    cases done
    exact .inl ((wakeup1_undisturbed woken).asleep q asleep)
  | dispatch =>
    simp only [Blocking.step, bind_ok] at done
    obtain ⟨⟨r, u⟩, hu, done⟩ := done
    cases done
    exact .inl ((scheduler_undisturbed hu).asleep q asleep)
  | yield p =>
    rw [Blocking.step, Blocking.withTable, bind_ok] at done
    obtain ⟨u, hu, done⟩ := done
    cases done
    exact .inl ((yield_undisturbed hu).asleep q asleep)
  | calculateaging =>
    rw [Blocking.step, Blocking.withTable, bind_ok] at done
    obtain ⟨u, hu, done⟩ := done
    cases done
    exact .inl ((calculateaging_undisturbed hu).asleep q asleep)

end Step

def BlockCall.work : BlockCall → Nat
  | .pipewrite _ addr => addr.length
  | .consoleread _ n => n
  | _ => 0

/-- How many steps of its own a killed process is from the call of exit, at most. -/
def BlockPc.distance : BlockPc → Nat
  | .user | .exit | .told .. | .switch _ => 0
  | .after => 1
  | .notify _ => 2
  | .loop c => 3 + c.work
  | .asleep c => 4 + c.work

section Distance
variable {s t : Blocking} {p : Slot}

theorem goto_distance (s : Blocking) (p : Slot) (pc : BlockPc) :
    ((s.goto p pc).pc p).distance = pc.distance := by simp [Blocking.goto]

theorem unlessKilled_distance {out : BlockPc} (killed : (s.table.proc p).killed = true) :
    ((s.unlessKilled p out pc).pc p).distance = out.distance := by
  rw [Blocking.unlessKilled, goto_distance, if_pos killed]

theorem leaves (s : Blocking) (p : Slot) {n : Nat} (out : pc.distance < 3) :
    ((s.goto p pc).pc p).distance < 3 + n := by
  rw [goto_distance]
  omega

theorem gives_up {n : Nat} (killed : (s.table.proc p).killed = true) :
    ((s.unlessKilled p .after pc).pc p).distance < 3 + n := by
  rw [unlessKilled_distance killed]
  simp only [BlockPc.distance]
  omega

theorem turn_distance (killed : (s.table.proc p).killed = true)
    (hears : ¬ (BlockPc.loop c).Deaf) (known : c ≠ .other) :
    ((s.turn p c).pc p).distance < 3 + c.work := by
  cases c with
  | semdown x => exact absurd trivial hears
  | pipewrite i addr =>
    cases addr with
    | nil => exact leaves s p (by simp [BlockPc.distance])
    | cons b rest =>
      dsimp only [Blocking.turn]
      split
      · split
        · exact leaves s p (by simp [BlockPc.distance])
        · exact gives_up killed
      · rw [goto_distance]
        simp [BlockPc.distance, BlockCall.work]
  | piperead i n =>
    dsimp only [Blocking.turn]
    split
    · exact gives_up killed
    · exact leaves _ p (by simp [BlockPc.distance])
  | wait =>
    dsimp only [Blocking.turn]
    rcases wait_undisturbed s.table p with ⟨r, stays, e, -⟩ | ⟨alive, -⟩
    · rw [e]
      cases r with
      | asleep => exact absurd rfl stays
      | failed | reaped _ _ => exact leaves { s with table := (wait s.table p).2 } p (by decide)
    · rw [killed] at alive
      cases alive
  | sleep ticks0 n =>
    rw [Blocking.turn]
    split
    · exact gives_up killed
    · exact leaves s p (by decide)
  | consoleread target n =>
    cases n with
    | zero => exact leaves s p (by decide)
    | succ n =>
      dsimp only [Blocking.turn]
      split
      · exact gives_up killed
      · split
        · exact leaves _ p (by decide)
        · rw [goto_distance]
          split <;> simp only [BlockPc.distance, BlockCall.work] <;> omega
  | other => exact absurd rfl known

theorem next_distance (killed : (s.table.proc p).killed = true) (hears : ¬ (s.pc p).Deaf)
    (done : s.next p (s.pc p) = .ok t) :
    s.pc p = .user ∨ s.pc p = .exit ∨ s.pc p = .loop .other ∨
      (t.pc p).distance < (s.pc p).distance := by
  cases at_ : s.pc p with
  | user => exact .inl rfl
  | exit => exact .inr (.inl rfl)
  | loop c =>
    rw [at_] at done hears
    cases done
    by_cases known : c = .other
    · subst known
      exact .inr (.inr (.inl rfl))
    · exact .inr (.inr (.inr (turn_distance killed hears known)))
  | told _ _ | switch _ =>
    rw [at_] at hears
    exact absurd trivial hears
  | asleep c =>
    rw [at_] at done
    cases done
    refine .inr (.inr (.inr ?_))
    rw [goto_distance]
    simp only [BlockPc.distance]
    omega
  | notify chan =>
    rw [at_, Blocking.next, bind_ok] at done
    obtain ⟨u, woken, done⟩ := done
    cases done
    refine .inr (.inr (.inr ?_))
    simp [Blocking.goto, BlockPc.distance]
  | after =>
    rw [at_] at done
    cases done
    refine .inr (.inr (.inr ?_))
    rw [unlessKilled_distance killed]
    simp [BlockPc.distance]

end Distance

/-- As long as kill hits no process inside semdown and none between its last test of the
flag and the change to SLEEPING, a killed process never goes to sleep on a channel of
these calls, and every step it makes in one of them brings it nearer to exit. -/
theorem killed_stays_awake {s t : Blocking} {a : BlockAct} {p : Slot}
    (run : Reaches Blocking.step (fun s a => s.Can a ∧ a.Heard s) Blocking.Initial s)
    (can : s.Can a) (done : s.step a = .ok t) (killed : (s.table.proc p).killed = true) :
    ((s.table.proc p).state ≠ .sleeping → (t.table.proc p).state = .sleeping →
      ∃ chan, (t.table.proc p).chan = some chan ∧ ¬ chan.UserWait) ∧
    (a = .run p → s.pc p = .user ∨ s.pc p = .exit ∨ s.pc p = .loop .other ∨
      (t.pc p).distance < (s.pc p).distance) := by
  have hears : AllHear s := by
    refine Reaches.invariant AllHear ?_
      (fun s a t h allowed ht => h.step allowed.1 allowed.2 ht) run
    rintro s ⟨shared, rfl⟩ q -
    exact id
  constructor
  · intro awake asleep
    rcases step_asleep can done asleep with old | ⟨c, at_⟩ | alive | ⟨chan, out, on⟩
    · exact absurd old awake
    · exact absurd (by rw [at_]; trivial) (hears p killed)
    · rw [killed] at alive
      cases alive
    · exact ⟨chan, on, out⟩
  · rintro rfl
    exact next_distance killed (hears p killed) done

/-- The child waits for a byte of an empty pipe and is killed there: it tests the flag
when it runs again, and leaves piperead. -/
theorem killed_stays_awake_reader :
    ∃ s t : Blocking, (s.table.proc 1).killed = true ∧ s.pc 1 = .loop (.piperead 0 1) ∧
      s.step (.run 1) = .ok t ∧ (t.pc 1).distance < (s.pc 1).distance := by
  have start : Reaches Blocking.step (fun s a => s.Can a ∧ a.Heard s) Blocking.Initial
      { table := Sched.initial.table, shared := { } } := .start ⟨_, rfl⟩
  obtain ⟨s, run, seen⟩ := start.exists_of_follow
    [.dispatch, .syscall 0 .other, .fork 0, .dispatch, .syscall 1 (.piperead 0 1), .run 1, .run 1,
      .kill 0 2, .dispatch, .run 1]
    (fun s : Blocking => s.Can (.run 1) ∧ (s.table.proc 1).killed = true ∧
      s.pc 1 = .loop (.piperead 0 1)) (by decide)
  simp only [decide_eq_true_eq] at seen
  obtain ⟨can, killed, at_⟩ := seen
  have done : s.step (.run 1) = .ok (s.turn 1 (.piperead 0 1)) := by rw [Blocking.step, at_]; rfl
  have nearer := (killed_stays_awake run can done killed).2 rfl
  rw [at_] at nearer
  simp only [reduceCtorEq, false_or, BlockPc.loop.injEq] at nearer
  exact ⟨s, _, killed, at_, done, at_ ▸ nearer⟩

/-- A process that waits in semdown is killed, finds the semaphore still taken and goes
to sleep on it again. -/
theorem killed_sleeps_in_semdown :
    ∃ s t : Blocking, Reaches Blocking.step (fun s a => s.Can a) Blocking.Initial s ∧
      s.Can (.run 1) ∧ s.step (.run 1) = .ok t ∧ (s.table.proc 1).killed = true ∧
      (s.table.proc 1).state = .running ∧ (t.table.proc 1).state = .sleeping ∧
      (t.table.proc 1).chan = some (.sem 3) := by
  have start : Reaches Blocking.step (fun s a => s.Can a) Blocking.Initial
      { table := Sched.initial.table, shared := { } } := .start ⟨_, rfl⟩
  obtain ⟨s, run, seen⟩ := start.exists_of_follow
    [.dispatch, .syscall 0 .other, .fork 0, .dispatch, .syscall 1 (.semdown 3), .run 1, .run 1,
      .kill 0 2, .dispatch, .run 1, .run 1]
    (fun s : Blocking => s.Can (.run 1) ∧ (s.table.proc 1).killed = true ∧
      s.pc 1 = .switch (.semdown 3)) (by decide)
  simp only [decide_eq_true_eq] at seen
  obtain ⟨can, killed, at_⟩ := seen
  refine ⟨s, _, run, can, by rw [Blocking.step, at_]; rfl, killed, can, ?_, ?_⟩
  · simp [Blocking.goto, MmapXv6.sleep, Ptable.modify]
  · simp [Blocking.goto, MmapXv6.sleep, Ptable.modify, BlockCall.chan]

end MmapXv6
