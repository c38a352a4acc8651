import MmapXv6.Proc.Frame
import MmapXv6.Lib.Post

/-! Every locked function of proc.c keeps the MLF queues in shape. The queues are those that the
history of the table spells, so their order is the one of the calls. setpriority takes any number:
make_runnable leaves the array mlf for a priority outside of it, and this is the only panic that
queues in shape come to. The proposition limited says whether the priorities are kept inside. -/
namespace MmapXv6

open Lib Function

variable {l : Fin MLFLEVELS} {limited : Prop} {t u : Ptable} {p : Slot}

structure Queued (limited : Prop) (t : Ptable) : Prop extends Chains t (replay t.history) where
  member : ∀ p (l : Fin MLFLEVELS), p ∈ replay t.history l ↔
    (t.proc p).state = .runnable ∧ (t.proc p).priority = l
  level : ∀ p, (t.proc p).state = .runnable → (t.proc p).priority < MLFLEVELS
  young : ∀ p, (t.proc p).state = .runnable → (t.proc p).age < AGEFORAGINGS
  inRange : limited → ∀ p, (t.proc p).priority < MLFLEVELS
  ordered : Ordered t.history

/-- The same while one process is in the hands of the running code: it is on no chain, whatever
its state says. -/
structure Lent (limited : Prop) (t : Ptable) (p : Slot) : Prop
    extends Chains t (replay t.history) where
  out : ∀ l, p ∉ replay t.history l
  member : ∀ q (l : Fin MLFLEVELS), q ≠ p → (q ∈ replay t.history l ↔
    (t.proc q).state = .runnable ∧ (t.proc q).priority = l)
  level : ∀ q, q ≠ p → (t.proc q).state = .runnable → (t.proc q).priority < MLFLEVELS
  young : ∀ q, q ≠ p → (t.proc q).state = .runnable → (t.proc q).age < AGEFORAGINGS
  inRange : limited → ∀ q, (t.proc q).priority < MLFLEVELS
  ordered : Ordered t.history

/-- The array mlf is left only if the priorities are not kept inside. -/
def Outside (limited : Prop) (e : Panic) : Prop := e = .mlfOutOfBounds ∧ ¬limited

section Lent

theorem Queued.take (h : Queued limited t) (idle : (t.proc p).state ≠ .runnable) :
    Lent limited t p where
  toChains := h.toChains
  out l hp := idle ((h.member p l).mp hp).1
  member q l _ := h.member q l
  level q _ := h.level q
  young q _ := h.young q
  inRange := h.inRange
  ordered := h.ordered

theorem Lent.put (h : Lent limited t p) (idle : (t.proc p).state ≠ .runnable) :
    Queued limited t where
  toChains := h.toChains
  member q l := by
    by_cases e : q = p
    · subst e
      exact ⟨fun hq => absurd hq (h.out l), fun hq => absurd hq.1 idle⟩
    · exact h.member q l e
  level q runnable := h.level q (by rintro rfl; exact idle runnable) runnable
  young q runnable := h.young q (by rintro rfl; exact idle runnable) runnable
  inRange := h.inRange
  ordered := h.ordered

theorem Lent.modify (h : Lent limited t p) (f : Proc → Proc)
    (priority : limited → (f (t.proc p)).priority < MLFLEVELS) : Lent limited (t.modify p f) p where
  toChains := h.toChains.congr rfl (fun l q hq => by
    have ne : q ≠ p := fun e => h.out l (e ▸ hq)
    rw [t.modify_ne f ne])
  out := h.out
  member q l ne := by rw [t.modify_ne f ne]; exact h.member q l ne
  level q ne := by rw [t.modify_ne f ne]; exact h.level q ne
  young q ne := by rw [t.modify_ne f ne]; exact h.young q ne
  inRange lim q := by
    by_cases e : q = p
    · subst e; simpa using priority lim
    · rw [t.modify_ne f e]; exact h.inRange lim q
  ordered := h.ordered

theorem Queued.modify_idle (h : Queued limited t) (f : Proc → Proc)
    (idle : (t.proc p).state ≠ .runnable) (after : (f (t.proc p)).state ≠ .runnable)
    (priority : limited → (f (t.proc p)).priority < MLFLEVELS) : Queued limited (t.modify p f) :=
  ((h.take idle).modify f priority).put (by simpa using after)

theorem Queued.unseen (h : Queued limited t) {f : Proc → Proc}
    (same : (f (t.proc p)).state = (t.proc p).state ∧
      (f (t.proc p)).priority = (t.proc p).priority ∧ (f (t.proc p)).next = (t.proc p).next)
    (young : (t.proc p).state = .runnable → (f (t.proc p)).age < AGEFORAGINGS) :
    Queued limited (t.modify p f) := by
  have all : ∀ q, ((t.modify p f).proc q).state = (t.proc q).state ∧
      ((t.modify p f).proc q).priority = (t.proc q).priority ∧
      ((t.modify p f).proc q).next = (t.proc q).next := by
    intro q
    by_cases e : q = p
    · subst e; simpa using same
    · rw [t.modify_ne f e]; exact ⟨rfl, rfl, rfl⟩
  refine ⟨h.toChains.congr rfl (fun l q _ => (all q).2.2), fun q l => ?_, fun q => ?_,
    fun q runnable => ?_, fun lim q => ?_, h.ordered⟩
  · rw [(all q).1, (all q).2.1]; exact h.member q l
  · rw [(all q).1, (all q).2.1]; exact h.level q
  · rw [(all q).1] at runnable
    by_cases e : q = p
    · subst e; simpa using young runnable
    · rw [t.modify_ne f e]; exact h.young q runnable
  · rw [(all q).2.1]; exact h.inRange lim q

theorem Lent.enqueue (h : Lent limited t p) (level : (t.proc p).priority = l) :
    Queued limited (t.enqueue l p) where
  toChains := h.toChains.enqueue l h.out
  member q k := by
    change q ∈ update (replay t.history) l (replay t.history l ++ [p]) k ↔ _
    by_cases e : q = p
    · subst e
      rw [enqueue_self, level]
      by_cases ek : k = l
      · subst ek; simp
      · simp [update_of_ne ek, h.out k, Fin.val_inj, Ne.symm ek]
    · rw [enqueue_ne t l e, ← h.member q k e]
      by_cases ek : k = l
      · subst ek; simp [e]
      · rw [update_of_ne ek]
  level q := by
    by_cases e : q = p
    · subst e; rw [enqueue_self, level]; exact fun _ => l.isLt
    · rw [enqueue_ne t l e]; exact h.level q e
  young q := by
    by_cases e : q = p
    · subst e; rw [enqueue_self]; exact fun _ => Nat.succ_pos 4
    · rw [enqueue_ne t l e]; exact h.young q e
  inRange lim q := by
    by_cases e : q = p
    · subst e; rw [enqueue_self]; exact h.inRange lim q
    · rw [enqueue_ne t l e]; exact h.inRange lim q
  ordered := h.ordered.push l h.out

theorem Queued.unqueue (h : Queued limited t) {rest : List Slot}
    (front : replay t.history l = p :: rest) :
    ∃ u, unqueue t l = .ok (p, u) ∧ Lent limited u p ∧ u.proc = t.proc ∧
      replay u.history = update (replay t.history) l rest := by
  have here : p ∈ replay t.history l := by rw [front]; exact List.mem_cons_self
  obtain ⟨u, hu, chains, same, past⟩ := h.toChains.unqueue front ((h.member p l).mp here).1
  have queues : replay u.history = update (replay t.history) l rest := by
    rw [past]
    change update (replay t.history) l (replay t.history l).tail = _
    rw [front, List.tail_cons]
  refine ⟨u, hu, ⟨queues ▸ chains, fun k hk => ?_, fun q k ne => ?_, fun q _ => ?_, fun q _ => ?_,
    fun lim q => ?_, past ▸ h.ordered.pop l⟩, same, queues⟩
  · rw [queues] at hk
    by_cases e : k = l
    · subst e
      rw [update_self] at hk
      have nodup := (h.queue k).nodup
      rw [front] at nodup
      exact (List.nodup_cons.mp nodup).1 hk
    · rw [update_of_ne e] at hk
      exact e (h.apart k l p hk here)
  · rw [queues, same, ← h.member q k]
    by_cases e : k = l
    · subst e; simp [front, ne]
    · rw [update_of_ne e]
  · rw [same]; exact h.level q
  · rw [same]; exact h.young q
  · rw [same]; exact h.inRange lim q

end Lent

section Operations

theorem Lent.queued (h : Lent limited t p) :
    Ensures (makeRunnable t p) (Queued limited) (Outside limited) := by
  unfold makeRunnable mlfLevel
  split
  · exact h.enqueue rfl
  · rename_i beyond
    exact ⟨rfl, fun lim => beyond (h.inRange lim p)⟩

theorem Lent.raised (h : Lent limited t p) : Lent limited (raise t p) p := by
  unfold raise
  split
  · exact h.modify _ fun lim => Nat.lt_of_le_of_lt (Nat.sub_le _ _) (h.inRange lim p)
  · exact h

theorem Lent.lowered (h : Lent limited t p) : Lent limited (lower t p) p := by
  unfold lower
  split
  · rename_i room
    exact h.modify _ fun _ => Nat.add_lt_of_lt_sub room
  · exact h

theorem Queued.first (h : Queued limited t) (l : Fin MLFLEVELS) :
    (t.mlf l).first = (replay t.history l).head? := (h.queue l).first_eq

theorem unqueue_growOlder (q : Slot) (done : unqueue t l = .ok (p, u)) :
    unqueue (growOlder t q) l = .ok (p, growOlder u q) := by
  have seen : ∀ r, ((growOlder t q).proc r).next = (t.proc r).next ∧
      ((growOlder t q).proc r).state = (t.proc r).state := by
    intro r
    by_cases e : r = q
    · subst e
      simp [growOlder]
    · rw [growOlder, t.modify_ne _ e]
      exact ⟨rfl, rfl⟩
  have mlf : (growOlder t q).mlf = t.mlf := rfl
  unfold MmapXv6.unqueue at done ⊢
  rw [mlf]
  cases first : (t.mlf l).first with
  | none =>
    rw [first] at done
    cases done
  | some r =>
    rw [first] at done
    simp only [seen] at done ⊢
    by_cases runnable : (t.proc r).state = .runnable
    · simp only [runnable, ne_eq, not_true_eq_false, if_false, Except.ok.injEq,
        Prod.mk.injEq] at done ⊢
      obtain ⟨rfl, rfl⟩ := done
      exact ⟨rfl, rfl⟩
    · rw [if_pos runnable] at done
      cases done

theorem Queued.promote (h : Queued limited t) {rest : List Slot}
    (front : replay t.history l = p :: rest) :
    ∃ v, Lent limited v p ∧ v.proc = t.proc ∧ replay v.history = update (replay t.history) l rest ∧
      promote (growOlder t p) p = makeRunnable (raise (growOlder v p) p) p := by
  have level : (t.proc p).priority = l :=
    ((h.member p l).mp (by rw [front]; exact List.mem_cons_self)).2
  have first : ((growOlder t p).mlf l).first = some p := by
    change (t.mlf l).first = _
    rw [h.first, front]
    rfl
  have grown : ((growOlder t p).proc p).priority = l := by simpa [growOlder] using level
  obtain ⟨v, hv, taken, same, queues⟩ := h.unqueue front
  refine ⟨v, taken, same, queues, ?_⟩
  simp only [MmapXv6.promote, levelupdate, mlfLevel_of_eq grown, ok_bind, first, ne_eq,
    not_true_eq_false, if_false, unqueue_growOlder p hv]

theorem Queued.wakeupOne (h : Queued limited t) (c : Option Chan) (p : Slot) :
    Ensures (wakeupOne c t p) (Queued limited) (Outside limited) := by
  unfold MmapXv6.wakeupOne
  split
  · rename_i asleep
    exact (h.take (by rw [asleep.1]; decide)).raised.queued
  · exact h

theorem Queued.wakeup1 (h : Queued limited t) (c : Option Chan) :
    Ensures (wakeup1 t c) (Queued limited) (Outside limited) :=
  .foldlM _ _ (fun _ p _ hs => hs.wakeupOne c p) h

theorem Queued.scheduler (h : Queued limited t) :
    Ensures (scheduler t) (fun r => Queued limited r.2) (Outside limited) := by
  unfold MmapXv6.scheduler
  split
  · exact h
  · rename_i l found
    have some_first : (t.mlf l).first.isSome = true := by simpa using List.find?_some found
    obtain ⟨p, first⟩ := Option.isSome_iff_exists.mp some_first
    rw [h.first] at first
    obtain ⟨rest, front⟩ := List.head?_eq_some_iff.mp first
    obtain ⟨v, hv, taken, -⟩ := h.unqueue front
    rw [hv]
    exact (taken.modify Proc.resume fun lim => taken.inRange lim p).put (by simp [Proc.resume])

theorem Queued.yield (h : Queued limited t) (running : (t.proc p).state = .running) :
    Ensures (yield t p) (Queued limited) (Outside limited) :=
  (h.take (by rw [running]; decide)).lowered.queued

theorem Queued.sleep (h : Queued limited t) (running : (t.proc p).state = .running) (c : Chan) :
    Queued limited (sleep t p c) :=
  h.modify_idle _ (by rw [running]; decide) (by simp) fun lim => h.inRange lim p

theorem Queued.kill (h : Queued limited t) (pid : Int) :
    Ensures (kill t pid) (fun r => Queued limited r.2) (Outside limited) := by
  unfold MmapXv6.kill
  split
  · exact h
  · rename_i p _
    have found : Ensures (killFound t p) (Queued limited) (Outside limited) := by
      unfold killFound
      split
      · rename_i asleep
        exact ((h.take (p := p) (by rw [asleep]; decide)).modify _ fun lim =>
          h.inRange lim p).queued
      · exact h.unseen ⟨rfl, rfl, rfl⟩ (h.young p)
    exact found.bind fun u hu => hu

theorem Queued.reparent (h : Queued limited t) (p q : Slot) :
    Ensures (reparent p t q) (Queued limited) (Outside limited) := by
  have moved : Queued limited (t.modify q (fun r => { r with parent := t.initproc })) :=
    h.unseen ⟨rfl, rfl, rfl⟩ (h.young q)
  unfold MmapXv6.reparent
  split
  · split
    · exact moved.wakeup1 _
    · exact moved
  · exact h

theorem Queued.exitLocked (h : Queued limited t) (running : (t.proc p).state = .running) :
    Ensures (exitLocked t p) (Queued limited) (Outside limited) := by
  refine (h.wakeup1 _).returns.bind fun v ⟨okv, woken⟩ => ?_
  refine (Ensures.foldlM (Queued limited) _ (fun _ q _ hs => hs.reparent p q) okv).returns.bind
    fun w ⟨okw, passed⟩ => ?_
  have kept : Spared t w p := (wakeup1_calm woken p).toSpared.trans
    (foldlM_ok (fun x => Spared v x p) _ (fun _ _ _ _ k hx => k.trans (reparent_spared hx p)) v w
      (.refl v p) passed)
  have still : (w.proc p).state = .running := by rw [kept.awake (by rw [running]; decide), running]
  exact okw.modify_idle _ (by rw [still]; decide) (by simp) fun lim => okw.inRange lim p

theorem Queued.wait (h : Queued limited t) (running : (t.proc p).state = .running) :
    Queued limited (wait t p).2 := by
  unfold MmapXv6.wait
  split
  · rename_i c found
    have zombie : (t.proc c).state = .zombie := by
      have := List.find?_some found
      simp only [decide_eq_true_eq] at this
      exact this.2
    exact h.modify_idle Proc.reap (by rw [zombie]; decide) (by simp [Proc.reap])
      fun lim => h.inRange lim c
  · split
    · exact h
    · exact h.sleep running _

theorem allocproc_some {n : Slot} (h : allocproc t = some (n, u)) :
    (t.proc n).state = .unused ∧
      u = { t.modify n (fun q => { q with state := .embryo, pid := t.nextpid }) with
        nextpid := t.nextpid + 1 } := by
  unfold allocproc at h
  split at h
  · contradiction
  · rename_i p found
    have unused := List.find?_some found
    simp only [decide_eq_true_eq] at unused
    cases Option.some.inj h
    exact ⟨unused, rfl⟩

theorem Queued.congr (h : Queued limited t) (proc : u.proc = t.proc) (mlf : u.mlf = t.mlf)
    (history : u.history = t.history) : Queued limited u := by
  obtain ⟨_, _, _, _, _⟩ := u
  subst proc mlf history
  exact ⟨⟨h.queue, h.apart⟩, h.member, h.level, h.young, h.inRange, h.ordered⟩

theorem Queued.allocproc {n : Slot} (h : Queued limited t) (found : allocproc t = some (n, u)) :
    Queued limited u := by
  obtain ⟨unused, rfl⟩ := allocproc_some found
  have claimed := h.modify_idle (p := n) (fun q => { q with state := .embryo, pid := t.nextpid })
    (by rw [unused]; decide) (by simp) fun lim => h.inRange lim n
  exact claimed.congr rfl rfl rfl

theorem Queued.allocprocSetup (h : Queued limited t) (embryo : (t.proc p).state = .embryo) :
    Queued limited (allocprocSetup t p) :=
  h.modify_idle _ (by rw [embryo]; decide) (by simp [embryo]) fun _ => Nat.succ_pos 3

theorem Queued.forkQueue {np : Slot} (h : Queued limited t) (embryo : (t.proc np).state = .embryo) :
    Ensures (forkQueue t p np) (Queued limited) (Outside limited) :=
  ((h.take (p := np) (by rw [embryo]; decide)).modify (fun q => { q with parent := some p })
    fun lim => h.inRange lim np).queued

theorem Queued.ageLevel (h : Queued limited t) (l : Fin MLFLEVELS) :
    Ensures (ageLevel t l) (Queued limited) (Outside limited) := by
  unfold MmapXv6.ageLevel
  rw [h.first]
  cases front : replay t.history l with
  | nil => exact h
  | cons p rest =>
    dsimp only [List.head?_cons]
    split
    · obtain ⟨v, taken, -, -, eq⟩ := h.promote front
      rw [eq]
      exact (taken.modify _ fun lim => taken.inRange lim p).raised.queued
    · rename_i more
      refine h.unseen ⟨rfl, rfl, rfl⟩ fun runnable => ?_
      have young := h.young p runnable
      simp only [growOlder, Ptable.modify_self] at more
      simp only [AGEFORAGINGS] at young more ⊢
      omega

theorem Queued.calculateaging (h : Queued limited t) :
    Ensures (calculateaging t) (Queued limited) (Outside limited) :=
  .foldlM _ _ (fun _ l _ hs => hs.ageLevel l) h

end Operations

end MmapXv6
