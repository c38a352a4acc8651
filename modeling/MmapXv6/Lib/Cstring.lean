import MmapXv6.Lib.Word

/-! C strings: a string is a list of bytes that are not NUL, and the end of the list is its
terminator. In a memory it stands as these bytes, and a NUL is where it ends. -/
namespace Lib

abbrev Byte := {c : UInt8 // c ≠ 0}

instance : LawfulBEq Byte := inferInstance

def byte (c : Char) (h : c.toUInt8 ≠ 0 := by decide) : Byte := ⟨c.toUInt8, h⟩

abbrev newline : Byte := byte '\n'

/-- The string at p, of which at most n bytes are read. -/
def cstring (b : Bytes) : Nat → Nat → List Byte
  | 0, _ => []
  | n + 1, p => if h : b p ≠ 0 then ⟨b p, h⟩ :: cstring b n (p + 1) else []

def Stored (b : Bytes) : Nat → List Byte → Prop
  | _, [] => True
  | p, c :: t => b p = c ∧ Stored b (p + 1) t

def cbytes (t : List Byte) : Bytes := fun i => (t.map Subtype.val).getD i 0

variable {b b' : Bytes} {p n : Nat} {t u : List Byte}

theorem cbytes_get (t : List Byte) {i : Nat} (h : i < t.length) : cbytes t i = t[i] := by
  simp [cbytes, h]

theorem Stored.congr (h : Stored b p t) (same : ∀ i, p ≤ i → i < p + t.length → b' i = b i) :
    Stored b' p t := by
  induction t generalizing p with
  | nil => trivial
  | cons c t ih =>
    simp only [List.length_cons] at same
    exact ⟨(same p (by omega) (by omega)).trans h.1,
      ih h.2 fun i low high => same i (by omega) (by omega)⟩

theorem stored_append : Stored b p (t ++ u) ↔ Stored b p t ∧ Stored b (p + t.length) u := by
  induction t generalizing p with
  | nil => simp [Stored]
  | cons c t ih => simp [Stored, ih, and_assoc, Nat.add_assoc, Nat.add_comm 1]

theorem stored_cstring (b : Bytes) (n p : Nat) : Stored b p (cstring b n p) := by
  induction n generalizing p with
  | zero => trivial
  | succ n ih =>
    by_cases zero : b p = 0
    · simp [cstring, zero, Stored]
    · simp [cstring, zero, Stored, ih]

theorem cstring_congr (same : ∀ i, p ≤ i → i < p + n → b' i = b i) :
    cstring b' n p = cstring b n p := by
  induction n generalizing p with
  | zero => rfl
  | succ n ih =>
    have here := same p (by omega) (by omega)
    have rest : cstring b' n (p + 1) = cstring b n (p + 1) :=
      ih fun i low high => same i (by omega) (by omega)
    simp [cstring, here, rest]

theorem cstring_length_le : (cstring b n p).length ≤ n := by
  induction n generalizing p with
  | zero => simp [cstring]
  | succ n ih =>
    by_cases zero : b p = 0
    · simp [cstring, zero]
    · simpa [cstring, zero] using ih

theorem cstring_ends (short : (cstring b n p).length < n) : b (p + (cstring b n p).length) = 0 := by
  induction n generalizing p with
  | zero => simp at short
  | succ n ih =>
    by_cases zero : b p = 0
    · simp [cstring, zero]
    · simp only [cstring, ne_eq, zero, not_false_eq_true, dite_true, List.length_cons,
        Nat.add_lt_add_iff_right] at short ⊢
      rw [← ih short]
      congr 1
      omega

theorem cstring_of_stored (h : Stored b p t) (ends : b (p + t.length) = 0) (room : t.length < n) :
    cstring b n p = t := by
  induction t generalizing p n with
  | nil =>
    obtain ⟨n, rfl⟩ := Nat.exists_eq_add_of_lt room
    simp_all [cstring]
  | cons c t ih =>
    obtain ⟨n, rfl⟩ := Nat.exists_eq_add_of_lt room
    simp only [List.length_cons] at ends ⊢
    have rest := ih (n := t.length + 1 + n) h.2 (by rw [← ends]; congr 1; omega) (by omega)
    simp [cstring, rest, h.1, c.2]

theorem cstring_full (h : Stored b p t) : cstring b t.length p = t := by
  induction t generalizing p with
  | nil => rfl
  | cons c t ih => simp [cstring, h.1, c.2, ih h.2]

theorem cstring_take (h : Stored b p (t.take n)) (ends : t.length < n → b (p + t.length) = 0) :
    cstring b n p = t.take n := by
  by_cases short : t.length < n
  · rw [List.take_of_length_le (Nat.le_of_lt short)] at h ⊢
    exact cstring_of_stored h (ends short) short
  · have full := cstring_full h
    rwa [List.length_take, Nat.min_eq_left (Nat.le_of_not_lt short)] at full

theorem stored_of_bytes (bytes : ∀ i (h : i < t.length), b (p + i) = t[i]) : Stored b p t := by
  induction t generalizing p with
  | nil => trivial
  | cons c t ih =>
    refine ⟨bytes 0 (by simp), ih fun i h => ?_⟩
    rw [Nat.add_assoc, Nat.add_comm 1, bytes (i + 1) (by simpa using h), List.getElem_cons_succ]

theorem Stored.bytes (h : Stored b p t) : (List.range' p t.length).map b = t.map Subtype.val := by
  induction t generalizing p with
  | nil => rfl
  | cons c t ih => simp [List.range'_succ, h.1, ih h.2]

end Lib
