import MmapXv6.Lib.Run

/-! Postconditions of fallible computations. A computation ensures a postcondition of
the value it returns and a property of the error it fails with, so one rule for each
way of composing programs covers both what is reached and what is not. -/
namespace Lib

def Ensures (x : Except ε A) (post : A → Prop) (fails : ε → Prop) : Prop :=
  match x with
  | .ok a => post a
  | .error e => fails e

section Rules
variable {x : Except ε A} {post : A → Prop} {fails : ε → Prop}

theorem Ensures.bind {f : A → Except ε B} {after : B → Prop} (h : Ensures x post fails)
    (next : ∀ a, post a → Ensures (f a) after fails) : Ensures (x >>= f) after fails := by
  cases x with
  | error e => exact h
  | ok a => exact next a h

theorem Ensures.mono {weaker : A → Prop} (h : Ensures x post fails)
    (imp : ∀ a, post a → weaker a) : Ensures x weaker fails := by
  cases x with
  | error e => exact h
  | ok a => exact imp a h

theorem Ensures.worse {other : ε → Prop} (h : Ensures x post fails)
    (imp : ∀ e, fails e → other e) : Ensures x post other := by
  cases x with
  | error e => exact imp e h
  | ok a => exact h

theorem Ensures.returns (h : Ensures x post fails) :
    Ensures x (fun a => post a ∧ x = .ok a) fails := by
  cases x with
  | error e => exact h
  | ok a => exact ⟨h, rfl⟩

theorem Ensures.of_ok (h : Ensures x post fails) {a : A} (returned : x = .ok a) : post a := by
  subst returned
  exact h

theorem Ensures.of_error (h : Ensures x post fails) {e : ε} (failed : x = .error e) : fails e := by
  subst failed
  exact h

theorem Ensures.foldlM {f : S → A → Except ε S} (Inv : S → Prop) (xs : List A)
    (keep : ∀ s a, a ∈ xs → Inv s → Ensures (f s a) Inv fails) {s : S} (start : Inv s) :
    Ensures (xs.foldlM f s) Inv fails := by
  induction xs generalizing s with
  | nil => exact start
  | cons a xs ih =>
    rw [List.foldlM_cons]
    exact (keep s a List.mem_cons_self start).bind fun t ht =>
      ih (fun s b hb => keep s b (List.mem_cons_of_mem a hb)) ht

end Rules

end Lib
