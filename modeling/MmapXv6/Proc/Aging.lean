import MmapXv6.Proc.Sched
import MmapXv6.Lib.Aging
import Mathlib.Data.Fintype.Card

/-! calculateaging against the general queues with aging: one turn of its loop is a visit
and one call is a pass. The bounds on the number of calls until a process is promoted,
and until every process is on level 0, are those of the passes. -/
namespace MmapXv6

open Lib
open Function (update update_eq_self update_idem update_self)

def aging (t : Ptable) (xs : List Slot) : List (Slot × Nat) := xs.map fun p => (p, (t.proc p).age)

/-- The queues with the ages of their members; there is nothing above the last level. -/
def levels (t : Ptable) (qs : Queues) (k : Nat) : List (Slot × Nat) :=
  if low : k < MLFLEVELS then aging t (qs ⟨k, low⟩) else []

section Levels
variable {limited : Prop} {t u v : Ptable} {qs : Queues} {p : Slot} {l : Fin MLFLEVELS}

@[simp] theorem levels_val : levels t qs l = aging t (qs l) := dif_pos l.isLt

theorem levels_update (xs : List Slot) :
    levels t (update qs l xs) = update (levels t qs) l (aging t xs) := by
  funext k
  unfold levels
  by_cases low : k < MLFLEVELS
  · by_cases here : k = l
    · subst here
      simp
    · have other : (⟨k, low⟩ : Fin MLFLEVELS) ≠ l := fun e => here (congrArg Fin.val e)
      simp [low, here, other]
  · have other : k ≠ l := by
      have := l.isLt
      omega
    simp [low, other]

theorem levels_congr (same : ∀ k, ∀ q ∈ qs k, (u.proc q).age = (t.proc q).age) :
    levels u qs = levels t qs := by
  funext k
  unfold levels aging
  split
  · exact List.map_congr_left fun q mem => by rw [same _ q mem]
  · rfl

theorem levels_enqueue (out : ∀ k, p ∉ qs k) :
    levels (t.enqueue l p) (update qs l (qs l ++ [p])) =
      update (levels t qs) l (levels t qs l ++ [(p, 0)]) := by
  have ages : ∀ k, ∀ q ∈ qs k, ((t.enqueue l p).proc q).age = (t.proc q).age := by
    intro k q mem
    have ne : q ≠ p := fun e => out k (e ▸ mem)
    rw [enqueue_ne t l ne]
  have joined : aging (t.enqueue l p) (qs l ++ [p]) = aging (t.enqueue l p) (qs l) ++ [(p, 0)] := by
    simp [aging]
  rw [levels_update, joined, ← levels_val, levels_congr ages]

theorem raise_history (t : Ptable) (p : Slot) : (raise t p).history = t.history := by
  unfold raise
  split <;> rfl

abbrev rows (t : Ptable) : Nat → List (Slot × Nat) := levels t (replay t.history)

theorem rows_val (l : Fin MLFLEVELS) : rows t l = aging t (replay t.history l) := levels_val

/-- The first process of a level goes to the end of the next lower level, or of level 0 when it is
there already. -/
theorem Queued.promoted (h : Queued limited t) {rest : List Slot}
    (front : replay t.history l = p :: rest) :
    ∃ u, MmapXv6.promote (growOlder t p) p = .ok u ∧ (Queued limited u ∧
      rows u = update (update (rows t) l (aging t rest)) (l - 1)
        (update (rows t) l (aging t rest) (l - 1) ++ [(p, 0)])) ∧
      ∀ q, (u.proc q).state = (t.proc q).state := by
  have mem : p ∈ replay t.history l := by
    rw [front]
    exact List.mem_cons_self
  obtain ⟨runnable, level⟩ := (h.member p l).mp mem
  obtain ⟨v, taken, same, queues, eq⟩ := h.promote front
  have older : Lent limited (raise (growOlder v p) p) p :=
    Lent.raised (taken.modify _ fun lim => taken.inRange lim p)
  obtain ⟨k, below⟩ : ∃ k : Fin MLFLEVELS, k.val = l - 1 :=
    ⟨⟨l - 1, by have := l.isLt; omega⟩, rfl⟩
  have target : ((raise (growOlder v p) p).proc p).priority = k := by
    rw [below]
    unfold raise
    split
    · simp [growOlder, same, level]
    · rename_i bottom
      simp only [growOlder, Ptable.modify_self, same, level, MLFMAXPRIORITY] at bottom ⊢
      omega
  have others : ∀ q, q ≠ p → (raise (growOlder v p) p).proc q = t.proc q := by
    intro q ne
    unfold raise growOlder
    split
    · rw [Ptable.modify_ne _ _ ne, Ptable.modify_ne _ _ ne, same]
    · rw [Ptable.modify_ne _ _ ne, same]
  have past : replay (raise (growOlder v p) p).history = update (replay t.history) l rest := by
    rw [raise_history]
    exact queues
  refine ⟨(raise (growOlder v p) p).enqueue k p, ?_, ⟨older.enqueue target, ?_⟩, fun q => ?_⟩
  · rw [eq, makeRunnable, mlfLevel_of_eq target]
    rfl
  · have ages : levels (raise (growOlder v p) p) (update (replay t.history) l rest) =
        levels t (update (replay t.history) l rest) := by
      refine levels_congr fun k q there => ?_
      rw [others q fun e => older.out k (past ▸ e ▸ there)]
    change levels _ (update (replay (raise (growOlder v p) p).history) k
      (replay (raise (growOlder v p) p).history k ++ [p])) = _
    rw [levels_enqueue older.out, past, ages, levels_update, below]
  · by_cases e : q = p
    · subst e
      rw [enqueue_self, runnable]
    · rw [enqueue_ne _ _ e, others q e]

/-- One turn of calculateaging's loop is a visit. The age is below AGEFORAGINGS, so the
increment does not wrap. -/
theorem Queued.visits (h : Queued limited t) (l : Fin MLFLEVELS) :
    ∃ u, MmapXv6.ageLevel t l = .ok u ∧
      (Queued limited u ∧ rows u = visit AGEFORAGINGS (rows t) l) ∧
      ∀ q, (u.proc q).state = (t.proc q).state := by
  unfold MmapXv6.ageLevel visit
  cases here : replay t.history l with
  | nil =>
    rw [h.first, rows_val, here]
    exact ⟨t, rfl, ⟨h, rfl⟩, fun q => rfl⟩
  | cons p rest =>
    have mem : p ∈ replay t.history l := by
      rw [here]
      exact List.mem_cons_self
    have young := h.young p ((h.member p l).mp mem).1
    have age : ((growOlder t p).proc p).age = (t.proc p).age + 1 := by
      simp only [growOlder, Ptable.modify_self]
      simp only [AGEFORAGINGS] at young
      omega
    have row : rows t l = (p, (t.proc p).age) :: aging t rest := by
      rw [rows_val, here]
      rfl
    rw [h.first, here, row]
    simp only [List.head?_cons, age]
    split
    · exact h.promoted here
    · rename_i more
      refine ⟨_, rfl, ⟨h.unseen ⟨rfl, rfl, rfl⟩ fun _ => ?_, ?_⟩, fun q => ?_⟩
      · simp only [AGEFORAGINGS] at young more ⊢
        omega
      · -- the other members, without p, have their old ages
        obtain ⟨v, -, taken, -, queues⟩ := h.unqueue here
        have others : levels (growOlder t p) (update (replay t.history) l rest) =
            levels t (update (replay t.history) l rest) := by
          refine levels_congr fun k q there => ?_
          have ne : q ≠ p := fun e => taken.out k (queues ▸ e ▸ there)
          rw [growOlder, t.modify_ne _ ne]
        have tail : aging (growOlder t p) rest = aging t rest := by
          simpa using congrFun others l
        have whole : replay t.history =
            update (update (replay t.history) l rest) l (p :: rest) := by
          rw [update_idem, ← here, update_eq_self]
        have head : aging (growOlder t p) (p :: rest) = (p, (t.proc p).age + 1) ::
            aging t rest := by
          rw [← tail, ← age]
          rfl
        change levels (growOlder t p) (replay t.history) = _
        nth_rewrite 1 [whole]
        rw [levels_update, others, head, levels_update, update_idem]
      · by_cases e : q = p
        · subst e
          simp [growOlder]
        · rw [growOlder, t.modify_ne _ e]

theorem Queued.passed (h : Queued limited t) :
    ∃ u, MmapXv6.calculateaging t = .ok u ∧
      (Queued limited u ∧ rows u = pass AGEFORAGINGS (rows t) MLFLEVELS) ∧
      ∀ q, (u.proc q).state = (t.proc q).state := by
  obtain ⟨t₁, h₁, ⟨queued₁, eq₁⟩, same₁⟩ := h.visits 0
  obtain ⟨t₂, h₂, ⟨queued₂, eq₂⟩, same₂⟩ := queued₁.visits 1
  obtain ⟨t₃, h₃, ⟨queued₃, eq₃⟩, same₃⟩ := queued₂.visits 2
  obtain ⟨t₄, h₄, ⟨queued₄, eq₄⟩, same₄⟩ := queued₃.visits 3
  refine ⟨t₄, ?_, ⟨queued₄, ?_⟩, fun q => ?_⟩
  · have order : List.finRange MLFLEVELS = [0, 1, 2, 3] := by decide
    simp [MmapXv6.calculateaging, order, h₁, h₂, h₃, h₄]
  · rw [eq₄, eq₃, eq₂, eq₁]
    rfl
  · rw [same₄, same₃, same₂, same₁]

end Levels

def Ptable.position (t : Ptable) (l : Fin MLFLEVELS) : Nat → Option Slot
  | 0 => (t.mlf l).first
  | i + 1 => (t.position l i).bind fun p => (t.proc p).next

def calculateagings : Nat → Ptable → Except Panic Ptable
  | 0, t => .ok t
  | m + 1, t => calculateaging t >>= calculateagings m

section Calls
variable {limited : Prop} {t u : Ptable} {qs : Queues} {p : Slot} {l : Fin MLFLEVELS}

theorem Chains.position (h : Chains t qs) (l : Fin MLFLEVELS) (i : Nat) :
    t.position l i = (qs l)[i]? := by
  have walk : ∀ (xs : List Slot) (i : Nat), Linked (fun p => (t.proc p).next) (t.position l i) xs →
      ∀ j, t.position l (i + j) = xs[j]? := by
    intro xs
    induction xs with
    | nil =>
      intro i linked j
      have ended : t.position l i = none := linked
      induction j with
      | zero => simpa using ended
      | succ j ih =>
        rw [← Nat.add_assoc, Ptable.position, ih]
        rfl
    | cons x xs ih =>
      intro i linked j
      cases j with
      | zero => simpa using linked.1
      | succ j =>
        have next : t.position l (i + 1) = (t.proc x).next := by
          rw [Ptable.position, linked.1]
          rfl
        rw [show i + (j + 1) = i + 1 + j by omega]
        exact ih (i + 1) (by rw [next]; exact linked.2) j
  simpa using walk (qs l) 0 (h.queue l).linked i

theorem Queued.young_rows (h : Queued limited t) : Young AGEFORAGINGS (rows t) := by
  intro k x mem
  unfold rows levels at mem
  split at mem
  · obtain ⟨p, there, rfl⟩ := List.mem_map.mp mem
    exact h.young p ((h.member p _).mp there).1
  · cases mem

theorem Queued.on (h : Queued limited t) {k : Nat} :
    On (rows t) p k ↔ (t.proc p).state = .runnable ∧ (t.proc p).priority = k := by
  constructor
  · rintro ⟨a, mem⟩
    unfold rows levels at mem
    split at mem
    · obtain ⟨q, there, same⟩ := List.mem_map.mp mem
      cases same
      exact (h.member _ _).mp there
    · cases mem
  · rintro ⟨runnable, rfl⟩
    have low := h.level p runnable
    have mem := (h.member p ⟨_, low⟩).mpr ⟨runnable, rfl⟩
    refine ⟨(t.proc p).age, ?_⟩
    rw [rows, levels, dif_pos low]
    exact List.mem_map_of_mem mem

theorem Queued.passes (h : Queued limited t) (m : Nat) :
    ∃ u, calculateagings m t = .ok u ∧
      (Queued limited u ∧ rows u = Lib.passes AGEFORAGINGS MLFLEVELS (rows t) m) ∧
      ∀ q, (u.proc q).state = (t.proc q).state := by
  induction m generalizing t with
  | zero => exact ⟨t, rfl, ⟨h, rfl⟩, fun q => rfl⟩
  | succ m ih =>
    obtain ⟨v, hv, ⟨queued, eq₁⟩, same₁⟩ := h.passed
    obtain ⟨u, hu, ⟨queued', eq₂⟩, same₂⟩ := ih queued
    refine ⟨u, ?_, ⟨queued', ?_⟩, fun q => (same₂ q).trans (same₁ q)⟩
    · rw [calculateagings, hv, ok_bind, hu]
    · rw [eq₂, eq₁, Lib.passes]

theorem Queued.length_le (h : Queued limited t) (k : Nat) : (rows t k).length ≤ NPROC := by
  unfold rows levels
  split
  · rw [aging, List.length_map]
    simpa using List.Nodup.length_le_card (h.queue ⟨k, _⟩).nodup
  · exact Nat.zero_le _

end Calls

/-- From any state of any run, calls of calculateaging alone bring every RUNNABLE process
down: one at position i of a level above 0 is on the next lower level after at most
AGEFORAGINGS * (i + 1) calls, no call moves a process by more than one level, and after
AGEFORAGINGS * NPROC calls for each level above 0 everyone is on level 0. -/
theorem aging_prevents_starvation {s : Sched}
    (run : Reaches Sched.step (fun _ _ => True) (· = Sched.initial) s) :
    (∀ p, (s.table.proc p).state = .runnable ↔
      ∃ l : Fin MLFLEVELS, (s.table.proc p).priority = l ∧ ∃ i, i < NPROC ∧
        s.table.position l i = some p) ∧
    (∀ (l : Fin MLFLEVELS) i p, 0 < l.val → s.table.position l i = some p →
      ∃ m, m ≤ AGEFORAGINGS * (i + 1) ∧ ∃ u, calculateagings m s.table = .ok u ∧
        (u.proc p).priority = l - 1 ∧ ∃ (k : Fin MLFLEVELS) (j : Nat), k.val = l - 1 ∧
          u.position k j = some p) ∧
    (∀ m, ∃ t u, calculateagings m s.table = .ok t ∧ calculateaging t = .ok u ∧
      ∀ p, (u.proc p).state = (t.proc p).state ∧
      ((t.proc p).state = .runnable → (u.proc p).priority = (t.proc p).priority ∨
        (u.proc p).priority + 1 = (t.proc p).priority)) ∧
    ∀ m, AGEFORAGINGS * NPROC * (MLFLEVELS - 1) ≤ m → ∃ u, calculateagings m s.table = .ok u ∧
      ∀ p, (u.proc p).state = .runnable → (u.proc p).priority = 0 := by
  have queued : Queued False s.table := (SchedInv.of_run nofun run).mlf
  have young := queued.young_rows
  refine ⟨fun p => ⟨fun runnable => ?_, ?_⟩, fun l i p pos there => ?_, fun m => ?_,
    fun m enough => ?_⟩
  · have low := queued.level p runnable
    obtain ⟨i, inside, there⟩ :=
      List.getElem_of_mem ((queued.member p ⟨_, low⟩).mpr ⟨runnable, rfl⟩)
    have small := queued.length_le (⟨_, low⟩ : Fin MLFLEVELS)
    rw [rows_val, aging, List.length_map] at small
    refine ⟨⟨_, low⟩, rfl, i, by omega, ?_⟩
    rw [queued.toChains.position, List.getElem?_eq_getElem inside, there]
  · rintro ⟨l, -, i, -, there⟩
    rw [queued.toChains.position] at there
    exact ((queued.member p l).mp (List.mem_of_getElem? there)).1
  · have at_ : (rows s.table l)[i]?.map Prod.fst = some p := by
      rw [queued.toChains.position] at there
      simp [aging, there]
    obtain ⟨m, le, on⟩ := Lib.promoted pos l.isLt young at_
    obtain ⟨u, hu, ⟨queued', eq⟩, -⟩ := queued.passes m
    rw [← eq, queued'.on] at on
    have low := queued'.level p on.1
    obtain ⟨j, inside, found⟩ := List.getElem_of_mem ((queued'.member p ⟨_, low⟩).mpr ⟨on.1, rfl⟩)
    refine ⟨m, le, u, hu, on.2, ⟨_, low⟩, j, on.2, ?_⟩
    rw [queued'.toChains.position, List.getElem?_eq_getElem inside, found]
  · obtain ⟨t, ht, ⟨queued₁, -⟩, -⟩ := queued.passes m
    obtain ⟨u, hu, ⟨queued₂, eq⟩, same⟩ := queued₁.passed
    refine ⟨t, u, ht, hu, fun p => ⟨same p, fun runnable => ?_⟩⟩
    have low := queued₁.level p runnable
    have moved : On (pass AGEFORAGINGS (rows t) MLFLEVELS) p _ ∨ On _ p _ :=
      (queued₁.on.mpr ⟨runnable, rfl⟩).pass low
    rw [← eq, queued₂.on, queued₂.on] at moved
    omega
  · obtain ⟨u, hu, ⟨queued', eq⟩, same⟩ := queued.passes m
    refine ⟨u, hu, fun p runnable => ?_⟩
    rw [same] at runnable
    have low := queued.level p runnable
    have small : ∀ m k, (passes AGEFORAGINGS MLFLEVELS (rows s.table) m k).length ≤ NPROC := by
      intro m k
      obtain ⟨v, -, ⟨queued₁, eq₁⟩, -⟩ := queued.passes m
      rw [← eq₁]
      exact queued₁.length_le k
    have down := all_zero (by decide) young small low (queued.on.mpr ⟨runnable, rfl⟩) m
      (Nat.le_trans (Nat.mul_le_mul_left _ (by omega)) enough)
    rw [← eq, queued'.on] at down
    exact down.2

/-- The first process forks and yields, so it waits on level 1; five calls bring it back. -/
theorem aging_prevents_starvation_after_yield :
    ∃ s : Sched, Reaches Sched.step (fun _ _ => True) (· = Sched.initial) s ∧
      s.table.position 1 0 = some 0 ∧ ∃ m, m ≤ AGEFORAGINGS ∧
      ∃ u, calculateagings m s.table = .ok u ∧
        (u.proc 0).priority = 0 := by
  have start : Reaches Sched.step (fun _ _ => True) (· = Sched.initial) Sched.initial := .start rfl
  obtain ⟨s, run, there⟩ := start.exists_of_follow
    [.dispatch, .forkClaim 0, .forkStack 0 true, .forkCopy 0 true, .yield 0]
    (fun s : Sched => s.table.position 1 0 = some 0) (by decide)
  simp only [decide_eq_true_eq] at there
  obtain ⟨m, le, u, hu, down, -⟩ := (aging_prevents_starvation run).2.1 1 0 0 (by decide) there
  exact ⟨s, run, there, m, le, u, hu, down⟩

end MmapXv6
