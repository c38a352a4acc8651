import Mathlib.Data.List.Basic

/-! Queues on levels whose first members age. A pass visits the levels from 0 up and
makes the first member of each one older; at the limit it goes to the end of the next
lower level with age 0, and on level 0 to the end of level 0. The levels below the one
visited have had their turn, so a member moves at most once in a pass. -/
namespace Lib

open Function (update update_apply)

section Aging
variable {A : Type*} {limit : Nat} {q : Nat → List (A × Nat)} {p : A} {l k n i a m : Nat}

def visit (limit : Nat) (q : Nat → List (A × Nat)) (l : Nat) : Nat → List (A × Nat) :=
  match q l with
  | [] => q
  | (p, a) :: rest =>
    if a + 1 = limit then
      let q := update q l rest
      update q (l - 1) (q (l - 1) ++ [(p, 0)])
    else update q l ((p, a + 1) :: rest)

def pass (limit : Nat) (q : Nat → List (A × Nat)) : Nat → Nat → List (A × Nat)
  | 0 => q
  | k + 1 => visit limit (pass limit q k) k

def aged (limit : Nat) : List (A × Nat) → List (A × Nat)
  | [] => []
  | (p, a) :: rest => if a + 1 = limit then rest else (p, a + 1) :: rest

def moved (limit : Nat) : List (A × Nat) → List (A × Nat)
  | [] => []
  | (p, a) :: _ => if a + 1 = limit then [(p, 0)] else []

section First
variable {rest : List (A × Nat)}

@[simp] theorem aged_full (full : a + 1 = limit) : aged limit ((p, a) :: rest) = rest := if_pos full

@[simp] theorem aged_young (young : a + 1 ≠ limit) :
    aged limit ((p, a) :: rest) = (p, a + 1) :: rest := if_neg young

@[simp] theorem moved_full (full : a + 1 = limit) : moved limit ((p, a) :: rest) = [(p, 0)] :=
  if_pos full

@[simp] theorem moved_young (young : a + 1 ≠ limit) :
    moved limit ((p, a) :: rest) = [] := if_neg young

end First

theorem visit_eq (limit : Nat) (q : Nat → List (A × Nat)) (l : Nat) :
    visit limit q l = fun k => (if k = l then aged limit (q k) else q k) ++
      if k = l - 1 then moved limit (q l) else [] := by
  funext k
  unfold visit
  cases level : q l with
  | nil =>
    by_cases here : k = l
    · subst here
      simp [level, aged, moved]
    · simp [here, moved]
  | cons first rest =>
    obtain ⟨p, a⟩ := first
    by_cases full : a + 1 = limit
    · simp only [full, if_true, moved, update_apply]
      by_cases here : k = l
      · subst here
        by_cases zero : k = k - 1
        · rw [if_pos zero, if_pos zero.symm, if_pos rfl, if_pos zero, level]
          simp [aged, full]
        · rw [if_neg zero, if_pos rfl, if_pos rfl, if_neg zero, level]
          simp [aged, full]
      · by_cases below : k = l - 1
        · subst below
          rw [if_pos rfl, if_neg here, if_neg here, if_pos rfl]
        · rw [if_neg below, if_neg here, if_neg here, if_neg below, List.append_nil]
    · simp only [full, if_false, moved, ite_self, List.append_nil, update_apply]
      by_cases here : k = l
      · subst here
        rw [if_pos rfl, if_pos rfl, level]
        simp [aged, full]
      · rw [if_neg here, if_neg here]

theorem pass_above (high : k ≤ l) : pass limit q k l = q l := by
  induction k with
  | zero => rfl
  | succ k ih =>
    rw [pass, visit_eq]
    dsimp only
    rw [if_neg (by omega), if_neg (by omega), List.append_nil]
    exact ih (by omega)

theorem pass_eq (low : l < n) : pass limit q n l = aged limit (q l) ++
    (if l = 0 then moved limit (q 0) else []) ++ if l + 1 < n then
      moved limit (q (l + 1)) else [] := by
  induction n with
  | zero => omega
  | succ k ih =>
    rw [pass, visit_eq]
    dsimp only
    by_cases here : l = k
    · subst here
      have turn : l = l - 1 ↔ l = 0 := by omega
      simp only [pass_above (Nat.le_refl l), turn, Nat.lt_irrefl, if_true, if_false,
        List.append_nil]
      by_cases zero : l = 0
      · rw [if_pos zero, if_pos zero, zero]
      · rw [if_neg zero, if_neg zero]
    · rw [if_neg here, ih (by omega)]
      by_cases next : k = l + 1
      · subst next
        simp [pass_above (Nat.le_refl (l + 1))]
      · have apart : l ≠ k - 1 := by omega
        have inside : l + 1 < k := by omega
        have within : l + 1 < k + 1 := by omega
        simp only [apart, inside, within, if_true, if_false, List.append_nil]

def On (q : Nat → List (A × Nat)) (p : A) (l : Nat) : Prop := ∃ a, (p, a) ∈ q l

theorem On.pass (on : On q p l) (low : l < n) :
    On (pass limit q n) p l ∨ On (pass limit q n) p (l - 1) := by
  obtain ⟨a, mem⟩ := on
  have stays : ∀ b, (p, b) ∈ aged limit (q l) → On (Lib.pass limit q n) p l := by
    intro b there
    refine ⟨b, ?_⟩
    rw [pass_eq low, List.append_assoc]
    exact List.mem_append_left _ there
  have moves : ∀ b, (p, b) ∈ moved limit (q l) → On (Lib.pass limit q n) p (l - 1) := by
    intro b there
    refine ⟨b, ?_⟩
    rw [pass_eq (by omega)]
    by_cases zero : l = 0
    · subst zero
      rw [if_pos rfl]
      exact List.mem_append_left _ (List.mem_append_right _ there)
    · rw [Nat.sub_add_cancel (by omega), if_pos low]
      exact List.mem_append_right _ there
  cases level : q l with
  | nil =>
    rw [level] at mem
    cases mem
  | cons first rest =>
    obtain ⟨f, b⟩ := first
    rw [level] at mem stays moves
    rcases List.mem_cons.mp mem with same | later
    · cases same
      by_cases full : a + 1 = limit
      · exact .inr (moves 0 (by simp [moved, full]))
      · exact .inl (stays (a + 1) (by simp [aged, full]))
    · refine .inl (stays a ?_)
      by_cases full : b + 1 = limit
      · rw [aged_full full]
        exact later
      · rw [aged_young full]
        exact List.mem_cons_of_mem _ later

def passes (limit n : Nat) (q : Nat → List (A × Nat)) : Nat → Nat → List (A × Nat)
  | 0 => q
  | m + 1 => passes limit n (pass limit q n) m

theorem passes_succ (limit n : Nat) (q : Nat → List (A × Nat)) (m : Nat) :
    passes limit n q (m + 1) = pass limit (passes limit n q m) n := by
  induction m generalizing q with
  | zero => rfl
  | succ m ih => exact ih (pass limit q n)

theorem passes_add (limit n : Nat) (q : Nat → List (A × Nat)) (m k : Nat) :
    passes limit n q (m + k) = passes limit n (passes limit n q m) k := by
  induction k with
  | zero => rfl
  | succ k ih => rw [← Nat.add_assoc, passes_succ, ih, passes_succ]

def Young (limit : Nat) (q : Nat → List (A × Nat)) : Prop := ∀ l, ∀ x ∈ q l, x.2 < limit

theorem Young.pass (young : Young limit q) (pos : 0 < limit) : Young limit (pass limit q n) := by
  have both : ∀ l, (∀ x ∈ aged limit (q l), x.2 < limit) ∧
      ∀ x ∈ moved limit (q l), x.2 < limit := by
    intro l
    have old := young l
    cases level : q l with
    | nil => simp [aged, moved]
    | cons first rest =>
      obtain ⟨p, a⟩ := first
      rw [level] at old
      have first := old (p, a) List.mem_cons_self
      by_cases full : a + 1 = limit
      · rw [aged_full full, moved_full full]
        refine ⟨fun x mem => old x (List.mem_cons_of_mem _ mem), fun x mem => ?_⟩
        rw [List.mem_singleton.mp mem]
        exact pos
      · rw [aged_young full, moved_young full]
        refine ⟨fun x mem => ?_, fun x mem => absurd mem List.not_mem_nil⟩
        rcases List.mem_cons.mp mem with rfl | later
        · dsimp only at first ⊢
          omega
        · exact old x (List.mem_cons_of_mem _ later)
  intro l x mem
  by_cases low : l < n
  · rw [pass_eq low] at mem
    rcases List.mem_append.mp mem with left | right
    · rcases List.mem_append.mp left with stay | turn
      · exact (both l).1 x stay
      · split at turn
        · exact (both 0).2 x turn
        · cases turn
    · split at right
      · exact (both (l + 1)).2 x right
      · cases right
  · rw [pass_above (by omega)] at mem
    exact young l x mem

/-- The member at position i of a level above 0 is on the next lower level after at most
limit * (i + 1) passes: each pass makes the first member older or brings p one place
nearer to the front. -/
theorem promoted (pos : 0 < l) (low : l < n) (young : Young limit q)
    (at_ : (q l)[i]?.map Prod.fst = some p) :
    ∃ m, m ≤ limit * (i + 1) ∧ On (passes limit n q m) p (l - 1) := by
  suffices bound : ∀ steps i q, Young limit q → (q l)[i]?.map Prod.fst = some p →
      (∀ f a rest, q l = (f, a) :: rest → limit * i + (limit - a) ≤ steps) →
      ∃ m, m ≤ steps ∧ On (passes limit n q m) p (l - 1) from by
    refine bound _ i q young at_ fun f a rest _ => ?_
    rw [Nat.mul_succ]
    omega
  intro steps
  induction steps with
  | zero =>
    intro i q young at_ measure
    cases level : q l with
    | nil =>
      rw [level] at at_
      cases at_
    | cons first rest =>
      obtain ⟨f, a⟩ := first
      have first := young l (f, a) (by rw [level]; exact List.mem_cons_self)
      have := measure f a rest level
      dsimp only at first
      omega
  | succ steps ih =>
    intro i q young at_ measure
    cases level : q l with
    | nil =>
      rw [level] at at_
      cases at_
    | cons first rest =>
      obtain ⟨f, a⟩ := first
      have first := young l (f, a) (by rw [level]; exact List.mem_cons_self)
      have left := measure f a rest level
      dsimp only at first
      have young' : Young limit (pass limit q n) := young.pass (by omega)
      have after : pass limit q n l = _ := pass_eq low
      rw [if_neg (by omega), List.append_nil, level] at after
      rw [level] at at_
      -- the passes after this one, for the position j that p has then
      have next : ∀ j, (pass limit q n l)[j]?.map Prod.fst = some p →
          (∀ f a rest, pass limit q n l = (f, a) :: rest → limit * j + (limit - a) ≤ steps) →
          ∃ m, m ≤ steps + 1 ∧ On (passes limit n q m) p (l - 1) := by
        intro j there less
        obtain ⟨m, le, on⟩ := ih j _ young' there less
        exact ⟨m + 1, by omega, on⟩
      by_cases full : a + 1 = limit
      · rw [aged_full full] at after
        cases i with
        | zero =>
          obtain rfl : f = p := Option.some.inj at_
          refine ⟨1, by omega, 0, ?_⟩
          change (f, 0) ∈ pass limit q n (l - 1)
          rw [pass_eq (by omega), Nat.sub_add_cancel pos, if_pos low, level, moved_full full]
          exact List.mem_append_right _ (List.mem_singleton_self _)
        | succ i =>
          have inside : i < rest.length := by
            by_contra out
            rw [List.getElem?_cons_succ, List.getElem?_eq_none (by omega)] at at_
            cases at_
          refine next i ?_ fun f' a' rest' _ => ?_
          · rw [after, List.getElem?_append_left inside]
            exact at_
          · rw [Nat.mul_succ] at left
            omega
      · rw [aged_young full] at after
        refine next i ?_ fun f' a' rest' here => ?_
        · have inside : i < ((f, a + 1) :: rest).length := by
            by_contra out
            rw [List.length_cons] at out
            rw [List.getElem?_eq_none (by rw [List.length_cons]; omega)] at at_
            cases at_
          rw [after, List.getElem?_append_left inside]
          cases i with
          | zero => exact at_
          | succ i => exact at_
        · rw [after] at here
          cases here
          omega

theorem On.zero (on : On q p 0) (low : 0 < n) (m : Nat) : On (passes limit n q m) p 0 := by
  induction m with
  | zero => exact on
  | succ m ih =>
    rw [passes_succ]
    exact (ih.pass low).elim id id

theorem Young.passes (young : Young limit q) (pos : 0 < limit) (m : Nat) :
    Young limit (passes limit n q m) := by
  induction m with
  | zero => exact young
  | succ m ih =>
    rw [passes_succ]
    exact ih.pass pos

/-- With at most size members on a level, everyone is on level 0 after limit * size passes
for each level above it. -/
theorem all_zero {size : Nat} (pos : 0 < limit) (young : Young limit q)
    (small : ∀ m l, (passes limit n q m l).length ≤ size) (low : l < n) (on : On q p l) :
    ∀ m, limit * size * l ≤ m → On (passes limit n q m) p 0 := by
  induction l generalizing q with
  | zero => exact fun m _ => on.zero low m
  | succ l ih =>
    intro m enough
    obtain ⟨a, mem⟩ := on
    obtain ⟨i, inside, there⟩ := List.getElem_of_mem mem
    have at_ : (q (l + 1))[i]?.map Prod.fst = some p := by
      rw [List.getElem?_eq_getElem inside, there]
      rfl
    obtain ⟨k, le, below⟩ := promoted (Nat.succ_pos l) low young at_
    have length : (q (l + 1)).length ≤ size := small 0 (l + 1)
    have bound : limit * (i + 1) ≤ limit * size := Nat.mul_le_mul_left limit (by omega)
    have later :=
      ih (young.passes pos k) (fun m' l' => by rw [← passes_add]; exact small _ _) (by omega)
      below (m - k) (by rw [Nat.mul_succ] at enough; omega)
    rw [← passes_add] at later
    rwa [show k + (m - k) = m by rw [Nat.mul_succ] at enough; omega] at later

end Aging

end Lib
