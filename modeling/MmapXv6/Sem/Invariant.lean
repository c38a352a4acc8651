import MmapXv6.Sem.System
import MmapXv6.Lib.Fibre

/-! The invariant of the semaphore machine. Every step is a composition of five kinds
of change: a scheduler step, a move of one program counter, an entry opened, an entry
closed, and a new value; each of them keeps the invariant under a side condition. -/
namespace MmapXv6

open Lib
open Function (update update_of_ne update_self)

def SemSystem.entries (s : SemSystem) : Slot × Fin MAXPROCSEM → Option SemId :=
  fun x => (s.proc x.1).osemaphore x.2

def SemSystem.SleepsOn (s : SemSystem) (p : Slot) (i : SemId) : Prop :=
  (s.proc p).state = .sleeping ∧ (s.proc p).chan = some (.sem i)

def SemSystem.WakeupDue (s : SemSystem) (i : SemId) : Prop := ∃ q, s.pc q = .upWake i

def SemSystem.Promise (s : SemSystem) (p : Slot) : SemPc → Prop
  | .downLoop i => (∃ k, s.entries (p, k) = some i) ∧ s.stableLock = some p
  | .sleepBoth i => (∃ k, s.entries (p, k) = some i) ∧ s.stableLock = some p ∧
      s.ptableLock = some p ∧ (s.sem i).value ≤ 0
  | .sleepOne i => (∃ k, s.entries (p, k) = some i) ∧ s.ptableLock = some p ∧
      (0 < (s.sem i).value → s.WakeupDue i)
  | .asleep i => (∃ k, s.entries (p, k) = some i) ∧
      (s.SleepsOn p i → 0 < (s.sem i).value → s.WakeupDue i)
  | .closing j => ∀ k : Fin MAXPROCSEM, k < j → s.entries (p, k) = none
  | .user | .upWake _ | .dup _ => True

@[simp] def SemPc.dupFrom : SemPc → Nat
  | .dup j => j
  | _ => 0

structure SemInv (s : SemSystem) : Prop where
  sched : SchedInv True s.sched
  refs : ∀ i, (s.sem i).references = (fibre s.entries i).card
  ids : ∀ i, 0 < (s.sem i).references → (s.sem i).id = i
  vacant : ∀ q k, (s.proc q).state = .unused ∨ (s.proc q).state = .zombie → s.entries (q, k) = none
  claimed : ∀ p np, Holds (s.sched.fork p) np → ∀ k : Fin MAXPROCSEM, (s.pc p).dupFrom ≤ k →
    s.entries (np, k) = none
  busy : ∀ p, s.pc p ≠ .user → (s.proc p).state.Live
  sleeper : ∀ p i, s.SleepsOn p i → s.pc p = .asleep i ∨ s.pc p = .sleepOne i
  promise : ∀ p, s.Promise p (s.pc p)

section Facts
variable {s : SemSystem} {p : Slot} {i : SemId}

theorem SemInv.entry_of_down (h : SemInv s) (down : (s.pc p).downOn = some i) :
    ∃ k, s.entries (p, k) = some i := by
  have promise := h.promise p
  cases pc : s.pc p <;> rw [pc] at down promise <;>
    simp only [SemPc.downOn, Option.some.injEq, reduceCtorEq] at down
  all_goals subst down; exact promise.1

theorem SemInv.references_pos (h : SemInv s) {x : Slot × Fin MAXPROCSEM}
    (entry : s.entries x = some i) :
    0 < (s.sem i).references := by
  rw [h.refs i]
  exact_mod_cast card_fibre_pos.mpr ⟨x, entry⟩

theorem SemInv.wakeup_of_sleeper (h : SemInv s) (asleep : s.SleepsOn p i)
    (positive : 0 < (s.sem i).value) :
    s.WakeupDue i := by
  have promise := h.promise p
  rcases h.sleeper p i asleep with e | e <;> rw [e] at promise
  · exact promise.2 asleep positive
  · exact promise.2.2 positive

theorem SemInv.stable_owner (h : SemInv s) (has : (s.pc p).hasStable = true) :
    s.stableLock = some p := by
  have promise := h.promise p
  cases pc : s.pc p <;> rw [pc] at promise has <;> try cases has
  · exact promise.2
  · exact promise.2.1

theorem SemInv.ptable_owner (h : SemInv s) (has : (s.pc p).hasPtable = true) :
    s.ptableLock = some p := by
  have promise := h.promise p
  cases pc : s.pc p <;> rw [pc] at promise has <;> try cases has
  · exact promise.2.2.1
  · exact promise.2.1

theorem SemInv.user_of_claimed (h : SemInv s) {np : Slot} (held : Holds (s.sched.fork p) np) :
    s.pc np = .user := by
  by_contra inside
  have live := h.busy np inside
  rw [show (s.proc np).state = .embryo from h.sched.embryo p np held] at live
  rcases live with e | e | e <;> cases e

end Facts

section Sched
variable {s : SemSystem} {a : SchedAct} {t : Sched}

theorem entries_of_frame (f : StepFrame a s.sched t) :
    ({ s with sched := t } : SemSystem).entries = s.entries := by
  funext x
  exact congrFun (f.osemaphore x.1) x.2

/-- A scheduler step keeps the invariant if exit finds no semaphore open, only the
stage of sleep made for it sleeps on a semaphore, and fork gives up its child only
before it has duplicated anything. -/
theorem SemInv.sched_step (h : SemInv s) (step : s.sched.step a = .ok t) (range : a.InRange)
    (exits : ∀ q, a = .exit q → s.pc q = .user ∧ ∀ k, s.entries (q, k) = none)
    (sleeps : ∀ q i, a = .sleep q (.sem i) → s.pc q = .sleepOne i)
    (undoes : ∀ p, a = .forkStack p false ∨ a = .forkCopy p false → (s.pc p).dupFrom = 0) :
    SemInv { s with sched := t } := by
  have frame := Sched.step_frame step
  have same := entries_of_frame frame
  have inv : SchedInv True t := (h.sched.step a fun _ => range.storesLevel).of_ok step
  -- who sleeps on a semaphore afterwards did so before, or is just passing from sleepOne
  have slept : ∀ p i, ({ s with sched := t } : SemSystem).SleepsOn p i → s.SleepsOn p i ∨
      s.pc p = .sleepOne i := by
    intro p i asleep
    rcases frame.sleeping_of asleep.1 asleep.2 with old | e | e
    · exact .inl old
    · exact .inr (sleeps p i e)
    · cases e
  refine ⟨inv, ?_, h.ids, ?_, ?_, ?_, ?_, ?_⟩
  · intro i
    rw [same]
    exact h.refs i
  · intro q k gone
    rw [same]
    rcases gone with unused | zombie
    · rcases frame.unused_of unused with e | e | ⟨p, held, which⟩
      · exact h.vacant q k (.inl e)
      · exact h.vacant q k (.inr e)
      · exact h.claimed p q held k (by rw [undoes p which]; exact Nat.zero_le _)
    · rcases frame.zombie_of zombie with e | e
      · exact h.vacant q k (.inr e)
      · exact (exits q e).2 k
  · intro p np held k from_
    rw [same]
    rcases frame.holds p np held with old | ⟨_, unused⟩
    · exact h.claimed p np old k from_
    · exact h.vacant np k (.inl unused)
  · intro p inside
    rcases frame.live_of h.sched (h.busy p inside) with live | e
    · exact live
    · exact absurd (exits p e).1 inside
  · intro p i asleep
    rcases slept p i asleep with old | e
    · exact h.sleeper p i old
    · exact .inr e
  · intro p
    have promise := h.promise p
    cases pc : s.pc p <;> simp only [pc, SemSystem.Promise, same] at promise ⊢
    · exact promise
    · exact promise
    · exact promise
    · refine ⟨promise.1, fun asleep => ?_⟩
      rcases slept p _ asleep with old | e
      · exact promise.2 old
      · cases e.symm.trans pc
    · exact promise

end Sched

section Moves
variable {s : SemSystem} {p : Slot}

/-- The locks and the program counter of p change; the other holders of a lock keep it,
and p gives up a wakeup that is due only when nobody waits for it any more. -/
theorem SemInv.move (h : SemInv s) {pc : SemPc} {l m : Option Slot}
    (busy : pc ≠ .user → (s.proc p).state.Live)
    (sleeper : ∀ i, s.SleepsOn p i → pc = .asleep i ∨ pc = .sleepOne i)
    (claimed : ∀ np, Holds (s.sched.fork p) np → ∀ k : Fin MAXPROCSEM, pc.dupFrom ≤ k →
      s.entries (np, k) = none)
    (stable : ∀ q, q ≠ p → (s.pc q).hasStable = true → l = some q)
    (ptable : ∀ q, q ≠ p → (s.pc q).hasPtable = true → m = some q)
    (due : ∀ i, s.pc p = .upWake i → ∀ q, ¬ s.SleepsOn q i ∧ s.pc q ≠ .sleepOne i)
    (promise : ({ s with stableLock := l, ptableLock := m }.goto p pc).Promise p pc) :
    SemInv ({ s with stableLock := l, ptableLock := m }.goto p pc) := by
  have other : ∀ q, q ≠ p → ({ s with stableLock := l, ptableLock := m }.goto p pc).pc q = s.pc q :=
    fun q ne => update_of_ne ne _ _
  have self : ({ s with stableLock := l, ptableLock := m }.goto p pc).pc p = pc :=
      update_self _ _ _
  have kept : ∀ i, s.WakeupDue i →
      ({ s with stableLock := l, ptableLock := m }.goto p pc).WakeupDue i ∨ s.pc p = .upWake i := by
    rintro i ⟨q, hq⟩
    by_cases e : q = p
    · exact .inr (e ▸ hq)
    · exact .inl ⟨q, (other q e).trans hq⟩
  refine ⟨h.sched, h.refs, h.ids, h.vacant, fun q np held k from_ => ?_, fun q inside => ?_,
    fun q i asleep => ?_, fun q => ?_⟩ <;> by_cases e : q = p
  · subst e; rw [self] at from_; exact claimed np held k from_
  · rw [other q e] at from_; exact h.claimed q np held k from_
  · subst e; rw [self] at inside; exact busy inside
  · rw [other q e] at inside; exact h.busy q inside
  · subst e; rw [self]; exact sleeper i asleep
  · rw [other q e]; exact h.sleeper q i asleep
  · subst e; rw [self]; exact promise
  · rw [other q e]
    have old := h.promise q
    have keepStable := stable q e
    have keepPtable := ptable q e
    cases pcq : s.pc q <;> rw [pcq] at old keepStable keepPtable
    case downLoop i => exact ⟨old.1, keepStable rfl⟩
    case sleepBoth i => exact ⟨old.1, keepStable rfl, keepPtable rfl, old.2.2.2⟩
    case sleepOne i =>
      refine ⟨old.1, keepPtable rfl, fun positive => ?_⟩
      exact (kept i (old.2.2 positive)).resolve_right (fun gone => (due i gone q).2 pcq)
    case asleep i =>
      refine ⟨old.1, fun asleep positive => ?_⟩
      exact (kept i (old.2 asleep positive)).resolve_right (fun gone => (due i gone q).1 asleep)
    all_goals exact old

theorem SemInv.goto (h : SemInv s) {pc : SemPc} (busy : pc ≠ .user → (s.proc p).state.Live)
    (sleeper : ∀ i, s.SleepsOn p i → pc = .asleep i ∨ pc = .sleepOne i)
    (claimed : ∀ np, Holds (s.sched.fork p) np → ∀ k : Fin MAXPROCSEM, pc.dupFrom ≤ k →
      s.entries (np, k) = none)
    (due : ∀ i, s.pc p = .upWake i → ∀ q, ¬ s.SleepsOn q i ∧ s.pc q ≠ .sleepOne i)
    (promise : (s.goto p pc).Promise p pc) : SemInv (s.goto p pc) :=
  h.move busy sleeper claimed (fun _ _ => h.stable_owner) (fun _ _ => h.ptable_owner) due promise

end Moves

section Cells
variable {s : SemSystem} {p : Slot} {k : Fin MAXPROCSEM} {i : SemId}

theorem setOsem_proc_ne {q : Slot} {osem : OpenSems} (h : q ≠ p) :
    (s.setOsem p osem).proc q = s.proc q :=
  s.sched.table.modify_ne (fun r => { r with osemaphore := osem }) h

theorem setOsem_self {osem : OpenSems} :
    (s.setOsem p osem).proc p = { s.proc p with osemaphore := osem } :=
  s.sched.table.modify_self p (fun r => { r with osemaphore := osem })

theorem setOsem_state (q : Slot) (osem : OpenSems) :
    ((s.setOsem p osem).proc q).state = (s.proc q).state ∧ ((s.setOsem p osem).proc q).chan =
      (s.proc q).chan := by
  by_cases e : q = p
  · subst e; rw [setOsem_self]; exact ⟨rfl, rfl⟩
  · rw [setOsem_proc_ne e]; exact ⟨rfl, rfl⟩

theorem setOsem_entries (v : Option SemId) :
    (s.setOsem p (update (s.proc p).osemaphore k v)).entries = update s.entries
      (p, k) v := by
  funext ⟨q, j⟩
  simp only [SemSystem.entries]
  by_cases e : q = p
  · subst e
    rw [setOsem_self]
    by_cases ej : j = k
    · subst ej; simp
    · simp [ej, SemSystem.entries]
  · rw [setOsem_proc_ne e, update_of_ne (by simp [e])]
    rfl

theorem setOsem_sched (h : SchedInv True s.sched) (osem : OpenSems) :
    SchedInv True (s.setOsem p osem).sched :=
  h.table (h.mlf.unseen ⟨rfl, rfl, rfl⟩ (h.mlf.young p))
    (fun q hq => (setOsem_state q osem).1.trans hq)

/-- A cell of the table changes together with the reference counts. The promises about
open entries and closed entries are the only ones left to check. -/
theorem SemInv.rewrite (h : SemInv s) {v : Option SemId} {sem : SemId → Semaphore}
    (refs : ∀ j, (sem j).references = (fibre (update s.entries (p, k) v) j).card)
    (ids : ∀ j, 0 < (sem j).references → (sem j).id = j)
    (values : ∀ j, (sem j).value = (s.sem j).value)
    (vacant : (s.proc p).state = .unused ∨ (s.proc p).state = .zombie → v = none)
    (claimed : ∀ q, Holds (s.sched.fork q) p → (s.pc q).dupFrom ≤ k → v = none)
    (opened : ∀ j, (s.pc p).downOn = some j → ∃ m, update s.entries (p, k) v (p, m) = some j)
    (closing : ∀ j, s.pc p = .closing j → k < j → v = none) :
    SemInv { s.setOsem p (update (s.proc p).osemaphore k v) with sem := sem } := by
  have entries :
      ({ s.setOsem p (update (s.proc p).osemaphore k v) with sem := sem } : SemSystem).entries =
      update s.entries (p, k) v := setOsem_entries v
  have state := fun q => setOsem_state (s := s) (p := p) q (update (s.proc p).osemaphore k v)
  have sleeps : ∀ q j, ({ s.setOsem p (update (s.proc p).osemaphore k v) with sem := sem } :
      SemSystem).SleepsOn q j ↔ s.SleepsOn q j := by
    intro q j
    exact and_congr (by rw [← (state q).1]; rfl) (by rw [← (state q).2]; rfl)
  have cell : ∀ (q : Slot) (m : Fin MAXPROCSEM), s.entries (q, m) = none →
      (q = p → m = k → v = none) → update s.entries (p, k) v (q, m) = none := by
    intro q m old new
    by_cases e : (q, m) = (p, k)
    · cases e; rw [update_self]; exact new rfl rfl
    · rw [update_of_ne e]; exact old
  refine ⟨setOsem_sched h.sched _, fun j => ?_, ids, fun q m gone => ?_,
    fun q np held m from_ => ?_, fun q inside => ?_, fun q j asleep => ?_, fun q => ?_⟩
  · rw [entries]; exact refs j
  · have old : (s.proc q).state = .unused ∨ (s.proc q).state = .zombie := (state q).1 ▸ gone
    rw [entries]
    exact cell q m (h.vacant q m old) (fun e _ => by subst e; exact vacant old)
  · rw [entries]
    exact cell np m (h.claimed q np held m from_)
      (fun e em => by subst e em; exact claimed q held from_)
  · exact (state q).1.symm ▸ h.busy q inside
  · exact h.sleeper q j ((sleeps q j).mp asleep)
  · have old := h.promise q
    have down : ∀ j, (s.pc q).downOn = some j → ∃ m, update s.entries (p, k) v
        (q, m) = some j := by
      intro j down
      by_cases e : q = p
      · subst e; exact opened j down
      · obtain ⟨m, hm⟩ := h.entry_of_down down
        exact ⟨m, by rw [update_of_ne (by simp [e])]; exact hm⟩
    change SemSystem.Promise _ q (s.pc q)
    cases pc : s.pc q <;> rw [pc] at old down <;>
      simp only [SemSystem.Promise, entries, sleeps, values]
    case downLoop i => exact ⟨down i rfl, old.2⟩
    case sleepBoth i => exact ⟨down i rfl, old.2⟩
    case sleepOne i => exact ⟨down i rfl, old.2⟩
    case asleep i => exact ⟨down i rfl, old.2⟩
    case closing j =>
      intro m below
      exact cell q m (old m below) (fun e em => by subst e em; exact closing j pc below)

theorem SemInv.opened (h : SemInv s) (free : s.entries (p, k) = none) (id : (s.sem i).id = i)
    (present : (s.proc p).state ≠ .unused ∧ (s.proc p).state ≠ .zombie)
    (claimed : ∀ q, Holds (s.sched.fork q) p → k < (s.pc q).dupFrom)
    (closing : ∀ j, s.pc p = .closing j → j ≤ k) :
    SemInv { s.setOsem p (update (s.proc p).osemaphore k (some i)) with
      sem := setSem s.sem i (fun x => { x with references := x.references + 1 }) } := by
  refine h.rewrite (fun j => ?_) (fun j positive => ?_) (fun j => ?_) (fun gone => ?_)
    (fun q held from_ => ?_)
    (fun j down => ?_) (fun j pc below => ?_)
  · rw [card_fibre_set free]
    by_cases e : j = i
    · subst e
      rw [setSem_self, if_pos rfl, Nat.cast_add, Nat.cast_one, ← h.refs j]
    · rw [setSem_ne _ _ e, h.refs j, if_neg e, Nat.add_zero]
  · by_cases e : j = i
    · subst e; simpa using id
    · rw [setSem_ne _ _ e] at positive ⊢; exact h.ids j positive
  · by_cases e : j = i
    · subst e; simp
    · rw [setSem_ne _ _ e]
  · exact absurd gone (by rintro (e | e); exacts [present.1 e, present.2 e])
  · have := claimed q held; omega
  · obtain ⟨m, hm⟩ := h.entry_of_down down
    have ne : (p, m) ≠ (p, k) := by rintro e; rw [e, free] at hm; cases hm
    exact ⟨m, by rw [update_of_ne ne]; exact hm⟩
  · have := closing j pc; omega

theorem SemInv.closed (h : SemInv s) (held : s.entries (p, k) = some i)
    (idle : (s.pc p).downOn = none) :
    SemInv { s.setOsem p (update (s.proc p).osemaphore k none) with
      sem := setSem s.sem i (fun x => { x with references := x.references - 1 }) } := by
  refine h.rewrite (fun j => ?_) (fun j positive => ?_) (fun j => ?_) (fun _ => rfl)
    (fun _ _ _ => rfl) (fun j down => ?_) (fun _ _ _ => rfl)
  · have count := card_fibre_clear held j
    have old := h.refs j
    by_cases e : j = i
    · subst e; rw [if_pos rfl] at count; simp only [setSem_self]; omega
    · rw [if_neg e] at count; rw [setSem_ne _ _ e]; omega
  · by_cases e : j = i
    · subst e
      simp only [setSem_self] at positive ⊢
      exact h.ids j (by omega)
    · rw [setSem_ne _ _ e] at positive ⊢; exact h.ids j positive
  · by_cases e : j = i
    · subst e; simp
    · rw [setSem_ne _ _ e]
  · rw [idle] at down; cases down

end Cells

section Values
variable {s : SemSystem} {i : SemId}

theorem SemInv.revalue (h : SemInv s) {f : Semaphore → Semaphore}
    (refs : (f (s.sem i)).references = (s.sem i).references)
    (kept : 0 < (s.sem i).references → (f (s.sem i)).id = (s.sem i).id)
    (low : ∀ q, s.pc q = .sleepBoth i → (f (s.sem i)).value ≤ 0)
    (woken : ∀ q, (s.pc q).downOn = some i → 0 < (f (s.sem i)).value → 0 < (s.sem i).value ∨
      s.WakeupDue i) :
    SemInv { s with sem := setSem s.sem i f } := by
  have other : ∀ j, j ≠ i → setSem s.sem i f j = s.sem j := fun j e => setSem_ne _ _ e
  have references : ∀ j, (setSem s.sem i f j).references = (s.sem j).references := by
    intro j
    by_cases e : j = i
    · subst e; simpa using refs
    · rw [other j e]
  have ids : ∀ j, 0 < (setSem s.sem i f j).references → (setSem s.sem i f j).id = j := by
    intro j positive
    rw [references j] at positive
    by_cases e : j = i
    · subst e; rw [setSem_self, kept positive]; exact h.ids j positive
    · rw [other j e]; exact h.ids j positive
  have due : ∀ q j, (s.pc q).downOn = some j → 0 < (setSem s.sem i f j).value →
      0 < (s.sem j).value ∨ s.WakeupDue j := by
    intro q j down positive
    by_cases e : j = i
    · subst e; rw [setSem_self] at positive; exact woken q down positive
    · rw [other j e] at positive; exact .inl positive
  refine ⟨h.sched, fun j => (references j).trans (h.refs j), ids, h.vacant, h.claimed, h.busy,
    h.sleeper, fun q => ?_⟩
  have old := h.promise q
  have low := low q
  have due := due q
  change SemSystem.Promise _ q (s.pc q)
  cases pc : s.pc q <;> rw [pc] at old low due
  case sleepBoth j =>
    refine ⟨old.1, old.2.1, old.2.2.1, ?_⟩
    change (setSem s.sem i f j).value ≤ 0
    by_cases e : j = i
    · subst e; rw [setSem_self]; exact low rfl
    · rw [other j e]; exact old.2.2.2
  case sleepOne j => exact ⟨old.1, old.2.1, fun positive => (due j rfl positive).elim old.2.2 id⟩
  case asleep j => exact ⟨old.1, fun asleep positive => (due j rfl positive).elim (old.2 asleep) id⟩
  all_goals exact old

theorem SemInv.record (h : SemInv s) (f : SemHistory → SemHistory) : SemInv (s.record i f) :=
  ⟨h.sched, h.refs, h.ids, h.vacant, h.claimed, h.busy, h.sleeper, h.promise⟩

end Values

end MmapXv6
