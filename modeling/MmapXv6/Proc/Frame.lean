import MmapXv6.Proc.Queue

/-! What a locked function of proc.c can do to the processes it is not about. The
other subsystems use these frames and never unfold the queue operations. -/
namespace MmapXv6

open Lib

variable {c : Option Chan} {p q : Slot} {t u : Ptable}

/-- The only visible change is that a sleeping process may have become RUNNABLE. -/
structure Kept (t u : Ptable) (q : Slot) : Prop where
  state : (u.proc q).state = (t.proc q).state ∨
    ((t.proc q).state = .sleeping ∧ (u.proc q).state = .runnable)
  chan : (u.proc q).chan = (t.proc q).chan
  pid : (u.proc q).pid = (t.proc q).pid
  osemaphore : (u.proc q).osemaphore = (t.proc q).osemaphore

theorem Kept.of_eq (h : u.proc q = t.proc q) : Kept t u q :=
  ⟨.inl (by rw [h]), by rw [h], by rw [h], by rw [h]⟩

theorem Kept.refl (t : Ptable) (q : Slot) : Kept t t q := .of_eq rfl

theorem Kept.trans {v : Ptable} (h : Kept t u q) (k : Kept u v q) : Kept t v q := by
  refine ⟨?_, k.chan.trans h.chan, k.pid.trans h.pid, k.osemaphore.trans h.osemaphore⟩
  rcases k.state with hk | ⟨hs, hr⟩
  · rw [hk]; exact h.state
  · rcases h.state with hh | ⟨hs', hr'⟩
    · exact .inr ⟨hh ▸ hs, hr⟩
    · rw [hr'] at hs; cases hs

theorem Kept.awake (h : Kept t u q) (awake : (t.proc q).state ≠ .sleeping) :
    (u.proc q).state = (t.proc q).state :=
  h.state.resolve_right (fun s => awake s.1)

theorem Kept.asleep (h : Kept t u q) (asleep : (u.proc q).state = .sleeping) :
    (t.proc q).state = .sleeping := by
  rcases h.state with e | ⟨_, e⟩
  · exact e ▸ asleep
  · rw [e] at asleep; cases asleep

theorem modify_kept (t : Ptable) (p : Slot) (f : Proc → Proc)
    (same : (f (t.proc p)).state = (t.proc p).state ∧ (f (t.proc p)).chan = (t.proc p).chan ∧
      (f (t.proc p)).pid = (t.proc p).pid ∧ (f (t.proc p)).osemaphore = (t.proc p).osemaphore)
    (q : Slot) : Kept t (t.modify p f) q := by
  by_cases h : q = p
  · subst h
    exact ⟨.inl (by simpa using same.1), by simpa using same.2.1, by simpa using same.2.2.1,
      by simpa using same.2.2.2⟩
  · exact .of_eq (t.modify_ne f h)

/-- Nor does the process change its killed flag, and the table keeps its two variables. -/
structure Spared (t u : Ptable) (q : Slot) : Prop extends Kept t u q where
  killed : (u.proc q).killed = (t.proc q).killed
  initproc : u.initproc = t.initproc
  nextpid : u.nextpid = t.nextpid

theorem Spared.trans {v : Ptable} (h : Spared t u q) (k : Spared u v q) : Spared t v q :=
  ⟨h.toKept.trans k.toKept, k.killed.trans h.killed, k.initproc.trans h.initproc,
    k.nextpid.trans h.nextpid⟩

theorem Spared.refl (t : Ptable) (q : Slot) : Spared t t q := ⟨.refl t q, rfl, rfl, rfl⟩

theorem modify_spared (t : Ptable) (p : Slot) (f : Proc → Proc)
    (same : (f (t.proc p)).state = (t.proc p).state ∧ (f (t.proc p)).chan = (t.proc p).chan ∧
      (f (t.proc p)).pid = (t.proc p).pid ∧ (f (t.proc p)).osemaphore = (t.proc p).osemaphore)
    (killed : (f (t.proc p)).killed = (t.proc p).killed) (q : Slot) :
    Spared t (t.modify p f) q := by
  refine ⟨modify_kept t p f same q, ?_, rfl, rfl⟩
  by_cases h : q = p
  · subst h; simpa using killed
  · rw [t.modify_ne f h]

/-- Nor does it change its parent. -/
structure Calm (t u : Ptable) (q : Slot) : Prop extends Spared t u q where
  parent : (u.proc q).parent = (t.proc q).parent

theorem Calm.refl (t : Ptable) (q : Slot) : Calm t t q := ⟨.refl t q, rfl⟩

theorem Calm.trans {v : Ptable} (h : Calm t u q) (k : Calm u v q) : Calm t v q :=
  ⟨h.toSpared.trans k.toSpared, k.parent.trans h.parent⟩

theorem modify_calm (t : Ptable) (p : Slot) (f : Proc → Proc)
    (same : (f (t.proc p)).state = (t.proc p).state ∧ (f (t.proc p)).chan = (t.proc p).chan ∧
      (f (t.proc p)).pid = (t.proc p).pid ∧ (f (t.proc p)).osemaphore = (t.proc p).osemaphore)
    (killed : (f (t.proc p)).killed = (t.proc p).killed)
    (parent : (f (t.proc p)).parent = (t.proc p).parent) (q : Slot) : Calm t (t.modify p f) q := by
  refine ⟨modify_spared t p f same killed q, ?_⟩
  by_cases h : q = p
  · subst h; simpa using parent
  · rw [t.modify_ne f h]

theorem Requeued.calm (h : Requeued t p u) (ne : q ≠ p) : Calm t u q := by
  obtain ⟨nx, e⟩ := h.other q ne
  exact ⟨⟨⟨.inl (by rw [e]), by rw [e], by rw [e], by rw [e]⟩, by rw [e], h.initproc, h.nextpid⟩,
    by rw [e]⟩

theorem Requeued.calm_all (h : Requeued t p u)
    (was : (t.proc p).state = .sleeping ∨ (t.proc p).state = .runnable) (q : Slot) :
    Calm t u q := by
  by_cases e : q = p
  · subst e
    have state : (u.proc q).state = (t.proc q).state ∨
        ((t.proc q).state = .sleeping ∧ (u.proc q).state = .runnable) := by
      rw [h.self]
      exact was.elim (fun asleep => .inr ⟨asleep, rfl⟩) (fun runnable => .inl runnable.symm)
    exact ⟨⟨⟨state, by rw [h.self], by rw [h.self], by rw [h.self]⟩, by rw [h.self], h.initproc,
      h.nextpid⟩, by rw [h.self]⟩
  · exact h.calm e

theorem raise_calm (t : Ptable) (p q : Slot) : Calm t (raise t p) q := by
  unfold raise
  split
  · exact modify_calm t p _ ⟨rfl, rfl, rfl, rfl⟩ rfl rfl q
  · exact .refl t q

theorem lower_calm (t : Ptable) (p q : Slot) : Calm t (lower t p) q := by
  unfold lower
  split
  · exact modify_calm t p _ ⟨rfl, rfl, rfl, rfl⟩ rfl rfl q
  · exact .refl t q

theorem raise_state (t : Ptable) (p : Slot) : ((raise t p).proc p).state = (t.proc p).state := by
  unfold raise
  split <;> simp

theorem wakeupOne_calm (h : wakeupOne c t p = .ok u)
    (q : Slot) : Calm t u q := by
  unfold wakeupOne at h
  split at h
  · rename_i asleep
    have slept : ((raise t p).proc p).state = .sleeping := (raise_state t p).trans asleep.1
    exact (raise_calm t p q).trans ((makeRunnable_requeued h).calm_all (.inl slept) q)
  · cases Except.ok.inj h
    exact .refl t q

theorem wakeupOne_wakes (h : wakeupOne c t p = .ok u)
    (waits : (t.proc p).chan = c) : (u.proc p).state ≠ .sleeping := by
  unfold wakeupOne at h
  split at h
  · rw [(makeRunnable_requeued h).self]
    simp
  · rename_i awake
    cases Except.ok.inj h
    exact fun asleep => awake ⟨asleep, waits⟩

theorem wakeup1_calm (h : wakeup1 t c = .ok u) (q : Slot) :
    Calm t u q :=
  foldlM_ok (fun v => Calm t v q) _ (fun _ _ _ _ k hv => k.trans (wakeupOne_calm hv q)) t u
    (.refl t q) h

theorem wakeup1_kept (h : wakeup1 t c = .ok u) (q : Slot) :
    Kept t u q := (wakeup1_calm h q).toKept

theorem wakeup1_wakes (h : wakeup1 t c = .ok u) (q : Slot)
    (waits : (t.proc q).chan = c) : (u.proc q).state ≠ .sleeping := by
  -- once the loop has passed q, the frame keeps it awake to the end
  have loop : ∀ (xs : List Slot) (v w : Ptable), xs.foldlM (wakeupOne c) v = .ok w → q ∈ xs →
      (v.proc q).chan = c → (w.proc q).state ≠ .sleeping := by
    intro xs
    induction xs with
    | nil => intro v w _ hq; cases hq
    | cons p xs ih =>
      intro v w hw hq hc
      rw [List.foldlM_cons, bind_ok] at hw
      obtain ⟨m, hm, hw⟩ := hw
      have tail : Kept m w q := foldlM_ok (fun x => Kept m x q) xs
        (fun _ _ _ _ k hv => k.trans (wakeupOne_calm hv q).toKept) m w (.refl m q) hw
      by_cases e : q = p
      · subst e
        intro asleep
        exact wakeupOne_wakes hm hc (tail.asleep asleep)
      · exact ih m w hw (List.mem_of_ne_of_mem e hq) ((wakeupOne_calm hm q).chan.trans hc)
  exact loop _ t u h (List.mem_finRange q) waits

theorem reparent_spared {r : Slot} (h : reparent p t r = .ok u) (q : Slot) :
    Spared t u q := by
  unfold reparent at h
  split at h
  · have moved : Spared t (t.modify r (fun x => { x with parent := t.initproc })) q :=
      modify_spared t r _ ⟨rfl, rfl, rfl, rfl⟩ rfl q
    split at h
    · exact moved.trans (wakeup1_calm h q).toSpared
    · cases Except.ok.inj h
      exact moved
  · cases Except.ok.inj h
    exact .refl t q

theorem exitLocked_frame (h : exitLocked t p = .ok u) :
    ∃ v, (∀ q, Spared t v q) ∧ u = v.modify p (fun q => { q with state := .zombie }) := by
  rw [exitLocked, bind_ok] at h
  obtain ⟨w, hw, h⟩ := h
  rw [bind_ok] at h
  obtain ⟨v, hv, h⟩ := h
  refine ⟨v, fun q => (wakeup1_calm hw q).toSpared.trans ?_, (Except.ok.inj h).symm⟩
  exact foldlM_ok (fun x => Spared w x q) _ (fun _ _ _ _ k hx => k.trans (reparent_spared hx q)) w v
    (.refl w q) hv

theorem killFound_calm (h : killFound t p = .ok u) (q : Slot) :
    Calm (t.modify p fun x => { x with killed := true }) u q := by
  unfold killFound at h
  split at h
  · rename_i asleep
    exact (makeRunnable_requeued h).calm_all (.inl (by simpa using asleep)) q
  · cases Except.ok.inj h
    exact .refl _ q

theorem kill_ok {pid r : Int} (h : kill t pid = .ok (r, u)) :
    u = t ∨ ∃ p, (List.finRange NPROC).find? (fun q => (t.proc q).pid = pid) = some p ∧
      ∀ q, Calm (t.modify p fun x => { x with killed := true }) u q := by
  unfold kill at h
  split at h
  · cases Except.ok.inj h
    exact .inl rfl
  · rename_i p found
    rw [bind_ok] at h
    obtain ⟨v, hv, h⟩ := h
    cases Except.ok.inj h
    exact .inr ⟨p, found, killFound_calm hv⟩

theorem kill_kept {pid r : Int} (h : kill t pid = .ok (r, u)) (q : Slot) : Kept t u q := by
  rcases kill_ok h with rfl | ⟨p, -, calm⟩
  · exact .refl _ q
  · exact (modify_kept t p _ ⟨rfl, rfl, rfl, rfl⟩ q).trans (calm q).toKept

theorem unqueue_ok {l : Fin MLFLEVELS} (h : unqueue t l = .ok (p, u)) :
    (t.mlf l).first = some p ∧ (t.proc p).state = .runnable ∧ u.proc = t.proc ∧
      u.initproc = t.initproc ∧ u.nextpid = t.nextpid := by
  unfold unqueue at h
  split at h
  · contradiction
  · rename_i q first
    dsimp only at h
    split at h
    · contradiction
    · rename_i runnable
      cases Except.ok.inj h
      exact ⟨first, not_not.mp runnable, rfl, rfl, rfl⟩

theorem promote_calm (h : promote t p = .ok u) (q : Slot) : Calm t u q := by
  rw [promote, bind_ok] at h
  obtain ⟨k, hk, h⟩ := h
  split at h
  · contradiction
  · rename_i first
    rw [levelupdate, hk, ok_bind, bind_ok] at h
    obtain ⟨r, hr, h⟩ := h
    obtain ⟨first', runnable, same, init, pid⟩ := unqueue_ok (p := r.1) (u := r.2) hr
    have e : p = r.1 := Option.some.inj ((not_not.mp first).symm.trans first')
    have still : ((raise r.2 p).proc p).state = .runnable := by
      rw [raise_state, same, e]; exact runnable
    have taken : Calm t r.2 q := by
      have here := congrFun same q
      exact ⟨⟨.of_eq here, by rw [here], init, pid⟩, by rw [here]⟩
    exact (taken.trans (raise_calm r.2 p q)).trans
      ((makeRunnable_requeued h).calm_all (.inr still) q)

theorem calculateaging_calm (h : calculateaging t = .ok u) (q : Slot) : Calm t u q := by
  refine foldlM_ok (fun v => Calm t v q) _ (fun v l w _ k hw => k.trans ?_) t u (.refl t q) h
  unfold ageLevel at hw
  split at hw
  · cases Except.ok.inj hw
    exact .refl v q
  · rename_i p _
    have older : Calm v (growOlder v p) q := modify_calm v p _ ⟨rfl, rfl, rfl, rfl⟩ rfl rfl q
    split at hw
    · exact older.trans (promote_calm hw q)
    · cases Except.ok.inj hw
      exact older

theorem calculateaging_kept (h : calculateaging t = .ok u) (q : Slot) : Kept t u q :=
  (calculateaging_calm h q).toKept

theorem scheduler_ok {r : Option Slot} (h : scheduler t = .ok (r, u)) :
    (r = none ∧ u = t) ∨ ∃ (p : Slot) (v : Ptable), r = some p ∧ (t.proc p).state = .runnable ∧
      v.proc = t.proc ∧ (v.initproc = t.initproc ∧ v.nextpid = t.nextpid) ∧
        u = v.modify p Proc.resume := by
  unfold scheduler at h
  split at h
  · cases Except.ok.inj h
    exact .inl ⟨rfl, rfl⟩
  · rw [bind_ok] at h
    obtain ⟨x, hx, h⟩ := h
    obtain ⟨_, runnable, same, init⟩ := unqueue_ok (p := x.1) (u := x.2) hx
    cases Except.ok.inj h
    exact .inr ⟨x.1, x.2, rfl, runnable, same, init, rfl⟩

theorem yield_ok (h : yield t p = .ok u) :
    (u.proc p).state = .runnable ∧ (u.proc p).chan = (t.proc p).chan ∧
      (u.proc p).pid = (t.proc p).pid ∧ (u.proc p).osemaphore = (t.proc p).osemaphore ∧
      ∀ q, q ≠ p → Kept t u q := by
  have r := makeRunnable_requeued h
  have l := lower_calm t p p
  refine ⟨by rw [r.self], by rw [r.self]; exact l.chan, by rw [r.self]; exact l.pid,
    by rw [r.self]; exact l.osemaphore, fun q ne => ((lower_calm t p q).trans (r.calm ne)).toKept⟩

end MmapXv6
