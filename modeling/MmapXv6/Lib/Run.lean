import Mathlib.Logic.Function.Basic

/-! Runs of a machine whose steps may fail. A step is a total function into
Except, so a failure is a visible outcome and not a missing transition. The
predicate allowed restricts the scheduler or the callers, never the machine. -/
namespace Lib

theorem bind_ok {x : Except ε A} {f : A → Except ε B} {b : B} :
    (x >>= f) = .ok b ↔ ∃ a, x = .ok a ∧ f a = .ok b := by
  cases x with
  | error e => simp [bind, Except.bind]
  | ok a => simp [bind, Except.bind]

theorem bind_error {x : Except ε A} {f : A → Except ε B} {e : ε} :
    (x >>= f) = .error e ↔ x = .error e ∨ ∃ a, x = .ok a ∧ f a = .error e := by
  cases x with
  | error e => simp [bind, Except.bind]
  | ok a => simp [bind, Except.bind]

@[simp] theorem ok_bind (a : A) (f : A → Except ε B) : (Except.ok a >>= f) = f a := rfl

@[simp] theorem pure_ok (a : A) : (pure a : Except ε A) = .ok a := rfl

/-- What evaluating x finds out about its result. -/
theorem ok_of_eval {x : Except ε A} {f : A → B} {b : B} (h : x.toOption.map f = some b) :
    ∃ a, x = .ok a ∧ f a = b := by
  cases x with
  | error e => cases h
  | ok a => exact ⟨a, rfl, Option.some.inj h⟩

theorem foldlM_keeps {f : S → A → Except ε S} (Inv : S → Prop) (xs : List A)
    (keep : ∀ s a, a ∈ xs → Inv s → ∃ t, f s a = .ok t ∧ Inv t) (s : S) (h : Inv s) :
    ∃ t, xs.foldlM f s = .ok t ∧ Inv t := by
  induction xs generalizing s with
  | nil => exact ⟨s, rfl, h⟩
  | cons a xs ih =>
    obtain ⟨t, ht, hi⟩ := keep s a List.mem_cons_self h
    obtain ⟨u, hu, hj⟩ := ih (fun s b hb => keep s b (List.mem_cons_of_mem a hb)) t hi
    exact ⟨u, by simpa [ht] using hu, hj⟩

theorem foldlM_ok {f : S → A → Except ε S} (Inv : S → Prop) (xs : List A)
    (keep : ∀ s a t, a ∈ xs → Inv s → f s a = .ok t → Inv t) (s t : S) (h : Inv s)
    (returned : xs.foldlM f s = .ok t) : Inv t := by
  induction xs generalizing s with
  | nil => exact (Except.ok.inj returned) ▸ h
  | cons a xs ih =>
    rw [List.foldlM_cons, bind_ok] at returned
    obtain ⟨u, hu, ht⟩ := returned
    exact ih (fun s b t hb => keep s b t (List.mem_cons_of_mem a hb)) u
      (keep s a u List.mem_cons_self h hu) ht

theorem foldlM_congr {f g : S → A → Except ε S} (xs : List A) (same : ∀ a ∈ xs, ∀ s, f s a = g s a)
    (s : S) :
    xs.foldlM f s = xs.foldlM g s := by
  induction xs generalizing s with
  | nil => rfl
  | cons a xs ih =>
    have rest : xs.foldlM f = xs.foldlM g :=
        funext (ih fun b mem => same b (List.mem_cons_of_mem a mem))
    simp only [List.foldlM_cons, same a List.mem_cons_self, rest]

theorem foldlM_idle {f : S → A → Except ε S} {s : S} (xs : List A) (idle : ∀ a, f s a = .ok s) :
    xs.foldlM f s = .ok s := by
  induction xs with
  | nil => rfl
  | cons a xs ih => rw [List.foldlM_cons, idle, ok_bind, ih]

theorem foldlM_simulates {f : S → A → Except ε S} {g : T → A → Except ε T} (R : S → T → Prop)
    (follows : ∀ s t a s', R s t → f s a = .ok s' → ∃ t', g t a = .ok t' ∧ R s' t') (xs : List A)
    {s s' : S} {t : T} (h : R s t) (returned : xs.foldlM f s = .ok s') :
    ∃ t', xs.foldlM g t = .ok t' ∧ R s' t' := by
  induction xs generalizing s t with
  | nil => exact ⟨t, rfl, (Except.ok.inj returned) ▸ h⟩
  | cons a xs ih =>
    rw [List.foldlM_cons, bind_ok] at returned
    obtain ⟨u, hu, rest⟩ := returned
    obtain ⟨v, hv, related⟩ := follows s t a u h hu
    obtain ⟨t', ht, last⟩ := ih related rest
    exact ⟨t', by simpa [hv] using ht, last⟩

theorem update_eq [DecidableEq A] {f : A → B} {a x : A} {b y : B} :
    Function.update f a b x = y ↔ x = a ∧ b = y ∨ x ≠ a ∧ f x = y := by
  rcases eq_or_ne x a with rfl | other
  · simp
  · simp [other]

/-- Every step of a run is made in a state that meets a condition on it. -/
def Along (step : S → A → Except ε S) (cond : S → A → Prop) : S → List A → Prop
  | _, [] => True
  | s, a :: as => cond s a ∧ ∀ t, step s a = .ok t → Along step cond t as

section Reach
variable {S A ε : Type*} (step : S → A → Except ε S) (allowed : S → A → Prop) (start : S → Prop)

/-- The states that some finite run of allowed, successful steps reaches. -/
inductive Reaches : S → Prop where
  | start {s : S} : start s → Reaches s
  | step {s t : S} {a : A} : Reaches s → allowed s a → step s a = .ok t → Reaches t

variable {step allowed start}

theorem Reaches.invariant (Inv : S → Prop) (initial : ∀ s, start s → Inv s)
    (keep : ∀ s a t, Inv s → allowed s a → step s a = .ok t → Inv t)
    {s : S} (run : Reaches step allowed start s) : Inv s := by
  induction run with
  | start hs => exact initial _ hs
  | step _ ha ht ih => exact keep _ _ _ ih ha ht

theorem Reaches.mono {other : S → A → Prop} (weaker : ∀ s a, allowed s a → other s a)
    {s : S} (run : Reaches step allowed start s) : Reaches step other start s := by
  induction run with
  | start hs => exact .start hs
  | step _ ha ht ih => exact .step ih (weaker _ _ ha) ht

variable (step allowed)

/-- A concrete run, evaluated: none as soon as a step fails or is not allowed. -/
def follow [∀ s a, Decidable (allowed s a)] (s : S) : List A → Option S
  | [] => some s
  | a :: rest =>
    if allowed s a then
      match step s a with
      | .ok t => follow t rest
      | .error _ => none
    else none

variable {step allowed}

theorem Reaches.follow [∀ s a, Decidable (allowed s a)] {s t : S}
    (run : Reaches step allowed start s) (as : List A)
    (ended : follow step allowed s as = some t) : Reaches step allowed start t := by
  induction as generalizing s with
  | nil => exact (Option.some.inj ended) ▸ run
  | cons a rest ih =>
    unfold Lib.follow at ended
    split at ended
    · rename_i ha
      split at ended
      · rename_i u hu
        exact ih (.step run ha hu) ended
      · contradiction
    · contradiction

theorem Reaches.exists_of_follow [∀ s a, Decidable (allowed s a)] {s : S}
    (run : Reaches step allowed start s) (as : List A) (test : S → Bool)
    (passed : (Lib.follow step allowed s as).any test = true) :
    ∃ t, Reaches step allowed start t ∧ test t = true := by
  cases ended : Lib.follow step allowed s as with
  | none => rw [ended] at passed; cases passed
  | some t => exact ⟨t, run.follow as ended, by rwa [ended] at passed⟩

end Reach

end Lib
