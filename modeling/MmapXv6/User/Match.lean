import Mathlib.Computability.Language
import MmapXv6.Lib.Cstring

/-! The pattern matcher of grep: match, matchhere and matchstar of grep.c, and the strings
that a pattern stands for. A C string is a list whose end is the NUL. -/
namespace MmapXv6.Grep

open Lib (Byte byte)
open scoped Computability

variable {as : List Atom} {c : Byte} {ends : Bool} {text : List Byte}

/-- The argument here is matchhere on the rest of the pattern. -/
def matchstar (c : Byte) (here : List Byte → Bool) : List Byte → Bool
  | [] => here []
  | t :: text => here (t :: text) || ((t = c || c = byte '.') && matchstar c here text)

def matchhere : List Byte → List Byte → Bool
  | [], _ => true
  | [c], text =>
    if c = byte '$' then text = []
    else match text with
      | [] => false
      | t :: _ => c = byte '.' || c = t
  | c :: s :: re, text =>
    if s = byte '*' then matchstar c (matchhere re) text
    else match text with
      | [] => false
      | t :: text => (c = byte '.' || c = t) && matchhere (s :: re) text

/-- The loop of match over the ends of the text, the empty one too. -/
def matchLoop (re : List Byte) : List Byte → Bool
  | [] => matchhere re []
  | t :: text => matchhere re (t :: text) || matchLoop re text

def match_ (re text : List Byte) : Bool :=
  match re with
  | [] => matchLoop [] text
  | c :: re' => if c = byte '^' then matchhere re' text else matchLoop re text

/-! What a pattern means. -/

/-- One position of a pattern: a character, or a character and a star. -/
inductive Atom
  | one (c : Byte)
  | star (c : Byte)

/-- The positions of a pattern without its leading ^, and whether a $ ends it. -/
def atoms : List Byte → List Atom × Bool
  | [] => ([], false)
  | [c] => if c = byte '$' then ([], true) else ([.one c], false)
  | c :: s :: re =>
    if s = byte '*' then (.star c :: (atoms re).1, (atoms re).2)
    else (.one c :: (atoms (s :: re)).1, (atoms (s :: re)).2)

def chars (c : Byte) : Language Byte := {w | ∃ t, (c = byte '.' ∨ c = t) ∧ w = [t]}

def Atom.lang : Atom → Language Byte
  | .one c => chars c
  | .star c => (chars c)∗

def lang (as : List Atom) : Language Byte := (as.map Atom.lang).prod

/-- The text starts with a string of the pattern, and is all of it if ends. -/
def Starts (as : List Atom) (ends : Bool) (text : List Byte) : Prop :=
  ∃ w after, text = w ++ after ∧ w ∈ lang as ∧ (ends → after = [])

/-- A part of the text is a string of the pattern, at the start of the text if the pattern
begins with ^, and at its end if it ends with $. -/
def Matches (re text : List Byte) : Prop :=
  if re.head? = some (byte '^') then Starts (atoms re.tail).1 (atoms re.tail).2 text
  else ∃ before rest, text = before ++ rest ∧ Starts (atoms re).1 (atoms re).2 rest

theorem mem_star_chars {w : List Byte} :
    w ∈ (chars c)∗ ↔ ∀ t ∈ w, c = byte '.' ∨ c = t := by
  rw [Language.mem_kstar]
  constructor
  · rintro ⟨ws, rfl, each⟩ t mem
    obtain ⟨w, inside, at_⟩ := List.mem_flatten.mp mem
    obtain ⟨u, accepts, rfl⟩ := each w inside
    rw [List.mem_singleton.mp at_]
    exact accepts
  · intro all
    refine ⟨w.map fun t => [t], (List.flatMap_singleton' w).symm, ?_⟩
    simp only [List.mem_map, forall_exists_index, and_imp]
    rintro _ t mem rfl
    exact ⟨t, all t mem, rfl⟩

theorem matchstar_iff {here : List Byte → Bool} :
    matchstar c here text ↔ ∃ w after, text = w ++ after ∧ w ∈ (chars c)∗ ∧ here after := by
  simp only [mem_star_chars]
  induction text with
  | nil => simp [matchstar]
  | cons t text ih =>
    simp only [matchstar, Bool.or_eq_true, Bool.and_eq_true, decide_eq_true_eq, ih]
    constructor
    · rintro (now | ⟨accepts, w, after, rfl, all, ends⟩)
      · exact ⟨[], t :: text, by simp, by simp, now⟩
      · refine ⟨t :: w, after, rfl, ?_, ends⟩
        simp only [List.mem_cons, forall_eq_or_imp]
        exact ⟨accepts.symm.imp_right Eq.symm, all⟩
    · rintro ⟨w, after, split, all, ends⟩
      cases w with
      | nil =>
        simp only [List.nil_append] at split
        exact .inl (split ▸ ends)
      | cons u w =>
        simp only [List.cons_append, List.cons.injEq] at split
        obtain ⟨rfl, rfl⟩ := split
        simp only [List.mem_cons, forall_eq_or_imp] at all
        exact .inr ⟨all.1.symm.imp_left Eq.symm, w, after, rfl, all.2, ends⟩

theorem starts_nil : Starts [] ends text ↔ (ends → text = []) := by
  simp [Starts, lang]

theorem starts_cons {a : Atom} :
    Starts (a :: as) ends text ↔ ∃ u rest, text = u ++ rest ∧ u ∈ a.lang ∧ Starts as ends rest := by
  simp only [Starts, lang, List.map_cons, List.prod_cons, Language.mem_mul]
  constructor
  · rintro ⟨_, after, rfl, ⟨u, mem, w, mem', rfl⟩, last⟩
    exact ⟨u, w ++ after, by simp, mem, w, after, rfl, mem', last⟩
  · rintro ⟨u, _, rfl, mem, w, after, rfl, mem', last⟩
    exact ⟨u ++ w, after, by simp, ⟨u, mem, w, mem', rfl⟩, last⟩

theorem not_starts_one : ¬ Starts (.one c :: as) ends [] := by
  rw [starts_cons]
  rintro ⟨_, rest, empty, ⟨t, -, rfl⟩, -⟩
  simp at empty

theorem starts_one {t : Byte} :
    Starts (.one c :: as) ends (t :: text) ↔ (c = byte '.' ∨ c = t) ∧ Starts as ends text := by
  rw [starts_cons]
  constructor
  · rintro ⟨_, rest, split, ⟨u, accepts, rfl⟩, starts⟩
    simp only [List.cons_append, List.nil_append, List.cons.injEq] at split
    exact ⟨split.1 ▸ accepts, split.2 ▸ starts⟩
  · rintro ⟨accepts, starts⟩
    exact ⟨[t], text, rfl, ⟨t, accepts, rfl⟩, starts⟩

theorem matchhere_iff : ∀ re text, matchhere re text ↔ Starts (atoms re).1 (atoms re).2 text
  | [], text => by simp [matchhere, atoms, starts_nil]
  | [c], text => by
    by_cases dollar : c = byte '$'
    · simp [matchhere, atoms, dollar, starts_nil]
    · cases text with
      | nil => simp [matchhere, atoms, dollar, not_starts_one]
      | cons t text => simp [matchhere, atoms, dollar, starts_one, starts_nil]
  | c :: s :: re, text => by
    by_cases star : s = byte '*'
    · simp [matchhere, atoms, star, matchstar_iff, starts_cons, Atom.lang, matchhere_iff re]
    · cases text with
      | nil => simp [matchhere, atoms, star, not_starts_one]
      | cons t text => simp [matchhere, atoms, star, starts_one, matchhere_iff (s :: re)]

theorem matchLoop_iff {re : List Byte} : matchLoop re text ↔
    ∃ before rest, text = before ++ rest ∧ matchhere re rest := by
  induction text with
  | nil => simp [matchLoop]
  | cons t text ih =>
    simp only [matchLoop, Bool.or_eq_true, ih]
    constructor
    · rintro (now | ⟨before, rest, rfl, later⟩)
      · exact ⟨[], t :: text, rfl, now⟩
      · exact ⟨t :: before, rest, rfl, later⟩
    · rintro ⟨before, rest, split, starts⟩
      cases before with
      | nil => exact .inl (by simpa [split] using starts)
      | cons u before =>
        simp only [List.cons_append, List.cons.injEq] at split
        exact .inr ⟨before, rest, split.2, starts⟩

/-- The matcher finds a pattern in a text exactly when a part of the text is a string of the
pattern. It returns on every input. -/
theorem match_iff_matches (re text : List Byte) : match_ re text = true ↔ Matches re text := by
  cases re with
  | nil => simp [match_, Matches, matchLoop_iff, matchhere_iff]
  | cons c re =>
    by_cases caret : c = byte '^'
    · simp [match_, Matches, caret, matchhere_iff]
    · simp [match_, Matches, caret, matchLoop_iff, matchhere_iff]

end MmapXv6.Grep
