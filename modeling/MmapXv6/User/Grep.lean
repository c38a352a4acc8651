import MmapXv6.Lib.Bytes
import MmapXv6.Lib.Run
import MmapXv6.User.Match

/-! The loop of grep over the chunks that read returns. The buffer is a static array that is
never cleared, strchr runs to the next NUL, and a partial line is moved to the front only
when the chunk had a newline. -/
namespace MmapXv6.Grep

open Lib (Byte byte newline Bytes cbytes cstring splice Stored Along)
open Function (update update_of_ne update_self)

/-- sizeof(buf). -/
def SIZE : Nat := 1024

inductive Fault
  | outside
  deriving DecidableEq

/-- strchr(buf + p, newline), where n bytes of buf are left from p on. -/
def strchr (b : Bytes) : Nat → Nat → Except Fault (Option Nat)
  | 0, _ => .error .outside
  | n + 1, p =>
    if b p = 0 then .ok none
    else if b p = newline then .ok (some p)
    else strchr b n (p + 1)

/-- The inner loop: each line up to its newline is matched, and written if it matches. -/
def lineLoop (pattern : List Byte) : Nat → Bytes → Nat → List (List UInt8) →
    Except Fault (Bytes × Nat × List (List UInt8))
  | 0, _, _, _ => .error .outside
  | fuel + 1, b, p, out => do
    match ← strchr b (SIZE - p) p with
    | none => return (b, p, out)
    | some q =>
      let cut := update b q 0
      if match_ pattern (cstring cut (SIZE - p) p) then
        let b := update cut q newline
        lineLoop pattern fuel b (q + 1) (out ++ [(List.range' p (q + 1 - p)).map b])
      else lineLoop pattern fuel cut (q + 1) out

def memmove : Nat → Bytes → Nat → Nat → Except Fault Bytes
  | 0, b, _, _ => .ok b
  | n + 1, b, dst, src =>
    if dst < SIZE ∧ src < SIZE then memmove n (update b dst (b src)) (dst + 1) (src + 1)
    else .error .outside

structure State where
  buf : Bytes
  m : Int
  out : List (List UInt8)

/-- The end of a turn: nothing is kept if p is still buf, else what follows p. -/
def keepRest (m : Int) : Bytes × Nat × List (List UInt8) → Except Fault State
  | (b, p, out) => do
    let m := if p = 0 then 0 else m
    if 0 < m then
      let b ← memmove (m - p).toNat b 0 p
      return ⟨b, m - p, out⟩
    else return ⟨b, m, out⟩

def State.filled (s : State) (chunk : List Byte) : Bytes :=
  splice s.buf s.m.toNat chunk.length (cbytes chunk)

/-- One turn of the loop of grep, in which read returns the bytes of chunk. -/
def turn (pattern : List Byte) (s : State) (chunk : List Byte) : Except Fault State :=
  if 0 ≤ s.m ∧ s.m + chunk.length ≤ SIZE then
    lineLoop pattern (SIZE + 1) (s.filled chunk) 0 s.out >>= keepRest (s.m + chunk.length)
  else .error .outside

def grep (pattern : List Byte) (s : State) (chunks : List (List Byte)) : Except Fault State :=
  chunks.foldlM (turn pattern) { s with m := 0 }

def boot : State := ⟨fun _ => 0, 0, []⟩

/-- The loop of main over the files, each as the chunks in which it is read. -/
def grepFiles (pattern : List Byte) (files : List (List (List Byte))) : Except Fault State :=
  files.foldlM (grep pattern) boot

/-- The complete lines of a text, without their newlines, and what follows the last. -/
def cut : List Byte → List (List Byte) × List Byte
  | [] => ([], [])
  | c :: t =>
    if c = newline then ([] :: (cut t).1, (cut t).2)
    else match (cut t).1 with
      | [] => ([], c :: (cut t).2)
      | l :: ls => ((c :: l) :: ls, (cut t).2)

def printed (pattern : List Byte) (ls : List (List Byte)) : List (List UInt8) :=
  (ls.filter (match_ pattern)).map fun l => (l ++ [newline]).map Subtype.val

variable {pattern t u l tail c : List Byte} {b : Bytes} {p n : Nat}
  {o : List (List UInt8)} {s : State}

theorem cut_plain (plain : newline ∉ l) : cut l = ([], l) := by
  induction l with
  | nil => rfl
  | cons c l ih =>
    simp only [List.mem_cons, not_or] at plain
    simp [cut, ih plain.2, Ne.symm plain.1]

theorem cut_line (plain : newline ∉ l) : cut (l ++ newline :: t) = (l :: (cut t).1, (cut t).2) := by
  induction l with
  | nil => simp [cut]
  | cons c l ih =>
    simp only [List.mem_cons, not_or] at plain
    simp [cut, ih plain.2, Ne.symm plain.1]

theorem lines_induction {motive : List Byte → Prop} (plain : ∀ t, newline ∉ t → motive t)
    (line : ∀ l t, newline ∉ l → motive t → motive (l ++ newline :: t)) (t : List Byte) :
    motive t := by
  induction size : t.length using Nat.strong_induction_on generalizing t with
  | _ size ih =>
    by_cases some : newline ∈ t
    · obtain ⟨l, rest, rfl, first⟩ := List.eq_append_cons_of_mem some
      exact line l rest first (ih rest.length (by simp at size; omega) rest rfl)
    · exact plain t some

theorem cut_append (t u : List Byte) : cut (t ++ u) =
    ((cut t).1 ++ (cut ((cut t).2 ++ u)).1, (cut ((cut t).2 ++ u)).2) := by
  induction t using lines_induction with
  | plain t plain => simp [cut_plain plain]
  | line l t plain ih => simp [cut_line plain, ih]

theorem cut_rest (t : List Byte) : newline ∉ (cut t).2 := by
  induction t using lines_induction with
  | plain t plain => simpa [cut_plain plain] using plain
  | line l t plain ih => simpa [cut_line plain] using ih

theorem cut_append_plain (plain : newline ∉ u) : cut (t ++ u) = ((cut t).1, (cut t).2 ++ u) := by
  have whole : newline ∉ (cut t).2 ++ u := by simp [cut_rest, plain]
  simp [cut_append, cut_plain whole]

theorem cut_suffix (t : List Byte) : ∃ whole, t = whole ++ (cut t).2 := by
  induction t using lines_induction with
  | plain t plain => exact ⟨[], by simp [cut_plain plain]⟩
  | line l t plain ih =>
    obtain ⟨whole, split⟩ := ih
    exact ⟨l ++ newline :: whole, by simp [cut_line plain, ← split]⟩

def taken (t : List Byte) : Nat := t.length - (cut t).2.length

theorem taken_add (t : List Byte) : taken t + (cut t).2.length = t.length := by
  obtain ⟨whole, split⟩ := cut_suffix t
  have := congrArg List.length split
  simp only [List.length_append] at this
  unfold taken
  omega

theorem taken_plain (plain : newline ∉ t) : taken t = 0 := by simp [taken, cut_plain plain]

theorem taken_line (plain : newline ∉ l) : taken (l ++ newline :: t) = l.length + 1 + taken t := by
  have rest := taken_add t
  have all := taken_add (l ++ newline :: t)
  simp only [cut_line plain, List.length_append, List.length_cons] at all
  omega

theorem taken_pos (some : newline ∈ t) : 0 < taken t := by
  obtain ⟨l, rest, rfl, plain⟩ := List.eq_append_cons_of_mem some
  rw [taken_line plain]
  omega

theorem printed_cons (pattern l : List Byte) (ls : List (List Byte)) :
    printed pattern (l :: ls) = printed pattern [l] ++ printed pattern ls := by
  by_cases matched : match_ pattern l <;> simp [printed, matched]

theorem taken_append_plain (plain : newline ∉ u) : taken (t ++ u) = taken t := by
  simp only [taken, cut_append_plain plain, List.length_append]
  omega

theorem lt_taken (some : newline ∈ u) : t.length < taken (t ++ u) := by
  induction t using lines_induction with
  | plain t plain =>
    obtain ⟨l, rest, rfl, first⟩ := List.eq_append_cons_of_mem some
    rw [← List.append_assoc, taken_line (by simp [plain, first])]
    simp only [List.length_append]
    omega
  | line l t plain ih =>
    simp only [List.append_assoc, List.cons_append, taken_line plain, List.length_append,
      List.length_cons]
    omega

theorem strchr_plain (stored : Stored b p l) (plain : newline ∉ l) :
    strchr b (l.length + n) p = strchr b n (p + l.length) := by
  induction l generalizing p with
  | nil => simp
  | cons c l ih =>
    simp only [List.mem_cons, not_or] at plain
    have other : (c : UInt8) ≠ newline := fun same => plain.1 (Subtype.ext same.symm)
    rw [List.length_cons, Nat.add_right_comm, strchr, stored.1, if_neg c.2, if_neg other,
      ih stored.2 plain.2]
    congr 1
    omega

theorem lineLoop_line (pattern : List Byte) (stored : Stored b p l) (plain : newline ∉ l)
    (here : b (p + l.length) = newline) (inside : p + l.length < SIZE) :
    ∃ v, lineLoop pattern (n + 1) b p o =
      lineLoop pattern n (update b (p + l.length) v) (p + l.length + 1)
      (o ++ printed pattern [l]) := by
  have left : SIZE - p = l.length + (SIZE - p - l.length - 1 + 1) := by omega
  have found : strchr b (SIZE - p) p = .ok (some (p + l.length)) := by
    rw [left, strchr_plain stored plain, strchr,
      if_neg (by rw [here]; exact newline.2), if_pos here]
  have text : cstring (update b (p + l.length) 0) (SIZE - p) p = l := by
    apply Lib.cstring_of_stored _ (update_self ..) (by omega)
    exact stored.congr fun i _ high => update_of_ne (by omega) ..
  by_cases matched : match_ pattern l
  · refine ⟨newline, ?_⟩
    have line : Stored b p (l ++ [newline]) := Lib.stored_append.mpr ⟨stored, here, trivial⟩
    have back : update b (p + l.length) newline = b := by rw [← here, Function.update_eq_self]
    have written := line.bytes
    simp only [List.length_append, List.length_singleton] at written
    simp [lineLoop, found, text, matched, printed, back, show p + l.length + 1 - p = l.length + 1
      by omega,
      written]
  · exact ⟨0, by simp [lineLoop, found, text, matched, printed]⟩

theorem lineLoop_ends (pattern : List Byte) (stored : Stored b p t) (ends : b (p + t.length) = 0)
    (inside : p + t.length < SIZE) (enough : t.length < n) :
    ∃ b', lineLoop pattern n b p o = .ok (b', p + taken t, o ++ printed pattern (cut t).1) ∧
      ∀ i, p + taken t ≤ i → b' i = b i := by
  induction t using lines_induction generalizing b p n o with
  | plain t plain =>
    have left : SIZE - p = t.length + (SIZE - p - t.length - 1 + 1) := by omega
    have none : strchr b (SIZE - p) p = .ok none := by
      rw [left, strchr_plain stored plain, strchr, if_pos ends]
    obtain ⟨n, rfl⟩ := Nat.exists_eq_add_of_lt enough
    exact ⟨b, by simp [lineLoop, none, taken_plain plain, cut_plain plain, printed], fun _ _ => rfl⟩
  | line l t plain ih =>
    simp only [List.length_append, List.length_cons] at ends inside enough ⊢
    obtain ⟨n, rfl⟩ := Nat.exists_eq_add_of_lt enough
    obtain ⟨first, here, later⟩ := Lib.stored_append.mp stored
    obtain ⟨v, line⟩ := lineLoop_line pattern first plain here (by omega)
    have kept : ∀ i, p + l.length + 1 ≤ i → update b (p + l.length) v i = b i :=
      fun i low => update_of_ne (by omega) ..
    obtain ⟨b', done, same⟩ := ih (n := l.length + (t.length + 1) + n)
      (o := o ++ printed pattern [l]) (later.congr fun i low _ => kept i low)
      (by rw [kept _ (by omega), ← ends]; congr 1; omega) (by omega) (by omega)
    refine ⟨b', ?_, fun i low => ?_⟩
    · rw [line, done, taken_line plain, cut_line plain, printed_cons pattern l (cut t).1,
        List.append_assoc]
      simp only [Nat.add_assoc]
    · rw [taken_line plain] at low
      rw [same i (by omega), kept i (by omega)]

theorem lineLoop_outside (pattern : List Byte) (stored : Stored b p t)
    (full : p + t.length = SIZE) : lineLoop pattern n b p o = .error .outside := by
  induction t using lines_induction generalizing b p n o with
  | plain t plain =>
    cases n with
    | zero => rfl
    | succ n =>
      have left : SIZE - p = t.length + 0 := by omega
      have off : strchr b (SIZE - p) p = .error .outside := by
        rw [left, strchr_plain stored plain, strchr]
      rw [lineLoop, off]
      rfl
  | line l t plain ih =>
    cases n with
    | zero => rfl
    | succ n =>
      simp only [List.length_append, List.length_cons] at full
      obtain ⟨first, here, later⟩ := Lib.stored_append.mp stored
      obtain ⟨v, line⟩ := lineLoop_line pattern first plain here (by omega)
      rw [line, ih (later.congr fun i low _ => update_of_ne (by omega) ..) (by omega)]

theorem memmove_stored {d s' : Nat} (stored : Stored b s' t) (ahead : d < s')
    (inside : s' + t.length ≤ SIZE) :
    ∃ b', memmove t.length b d s' = .ok b' ∧ Stored b' d t ∧ ∀ i, i < d → b' i = b i := by
  induction t generalizing b d s' with
  | nil => exact ⟨b, rfl, trivial, fun _ _ => rfl⟩
  | cons c t ih =>
    simp only [List.length_cons] at inside
    have later : Stored (update b d (b s')) (s' + 1) t :=
      stored.2.congr fun i low _ => update_of_ne (by omega) ..
    obtain ⟨b', done, copied, kept⟩ := ih later (Nat.add_lt_add_right ahead 1) (by omega)
    refine ⟨b', ?_, ⟨?_, copied⟩, fun i low => ?_⟩
    · rw [List.length_cons, memmove, if_pos (by omega), done]
    · rw [kept d (by omega), update_self, stored.1]
    · rw [kept i (by omega), update_of_ne (by omega)]

theorem keepRest_none (m : Int) : keepRest m (b, 0, o) = .ok ⟨b, 0, o⟩ := by simp [keepRest]

theorem keepRest_back {d : Nat} (some : 0 < d) (far : d < p) :
    keepRest d (b, p, o) = .ok ⟨b, d - p, o⟩ := by
  have past : (d - p : Int).toNat = 0 := by omega
  simp [keepRest, past, memmove, some, show p ≠ 0 by omega]

theorem keepRest_rest {d : Nat} (stored : Stored b p t) (some : 0 < p) (all : p + t.length = d)
    (inside : d ≤ SIZE) : ∃ b', keepRest d (b, p, o) = .ok ⟨b', t.length, o⟩ ∧ Stored b' 0 t := by
  have left : (d - p : Int) = t.length := by omega
  obtain ⟨b', done, copied, -⟩ := memmove_stored stored some (by omega)
  exact ⟨b', by simp [keepRest, left, done, show p ≠ 0 by omega, show 0 < d by omega], copied⟩

structure State.Carries (s : State) (tail : List Byte) : Prop where
  size : s.m = tail.length
  front : Stored s.buf 0 tail
  plain : newline ∉ tail

/-- The turn prints the lines that the chunk completes, if they match, and carries the rest. -/
def Right (pattern : List Byte) (s : State) (tail c : List Byte) : Prop :=
  ∃ s', turn pattern s c = .ok s' ∧ s'.out = s.out ++ printed pattern (cut (tail ++ c)).1 ∧
    s'.Carries (cut (tail ++ c)).2

/-- What stands in buf behind the bytes of the chunk, up to the next NUL. -/
def State.stale (s : State) (c : List Byte) : List Byte :=
  cstring s.buf (SIZE - (s.m.toNat + c.length)) (s.m.toNat + c.length)

/-- The chunk has a newline, and what stands behind it has none and ends inside buf. -/
def State.Meets (s : State) (c : List Byte) : Prop :=
  newline ∈ c ∧ newline ∉ s.stale c ∧ s.m.toNat + c.length + (s.stale c).length < SIZE

instance (s : State) (c : List Byte) : Decidable (s.Meets c) := by
  unfold State.Meets
  infer_instance

theorem State.Carries.turn_eq (h : s.Carries tail) (pattern : List Byte)
    (room : tail.length + c.length ≤ SIZE) :
    ∃ b, Stored b 0 (tail ++ c ++ s.stale c) ∧ (∀ i, tail.length + c.length ≤ i → b i = s.buf i) ∧
      turn pattern s c =
        lineLoop pattern (SIZE + 1) b 0 s.out >>= keepRest (tail.length + c.length : Nat) := by
  have place : s.m.toNat = tail.length := by simp [h.size]
  have fits : 0 ≤ s.m ∧ s.m + c.length ≤ SIZE := by
    rw [h.size]
    omega
  refine ⟨s.filled c, ?_, fun i low => Lib.splice_outside (by omega), ?_⟩
  · rw [Lib.stored_append, Lib.stored_append]
    refine ⟨⟨h.front.congr fun i _ high => Lib.splice_outside (by omega), ?_⟩, ?_⟩
    · apply Lib.stored_of_bytes
      intro i small
      rw [State.filled, place, Nat.zero_add, Lib.splice_at small, Lib.cbytes_get c small]
    · have old := Lib.stored_cstring s.buf (SIZE - (s.m.toNat + c.length)) (s.m.toNat + c.length)
      rw [place] at old
      have kept : Stored (s.filled c) (tail.length + c.length) _ :=
        old.congr fun i low _ => Lib.splice_outside (by omega)
      simpa [State.stale, place] using kept
  · rw [turn, if_pos fits, h.size, Int.natCast_add]

theorem turn_outside (pattern : List Byte) (h : s.Carries tail)
    (full : tail.length + c.length + (s.stale c).length = SIZE) :
    turn pattern s c = .error .outside := by
  obtain ⟨b, stored, -, eq⟩ := h.turn_eq (c := c) pattern (by omega)
  rw [eq, lineLoop_outside pattern stored (by simpa [Nat.add_assoc] using full)]
  rfl

theorem turn_ends (pattern : List Byte) (h : s.Carries tail)
    (short : tail.length + c.length + (s.stale c).length < SIZE) :
    ∃ b, Stored b (taken (tail ++ c ++ s.stale c)) (cut (tail ++ c ++ s.stale c)).2 ∧
      turn pattern s c = keepRest (tail.length + c.length : Nat) (b, taken (tail ++ c ++ s.stale c),
        s.out ++ printed pattern (cut (tail ++ c ++ s.stale c)).1) := by
  obtain ⟨b, stored, old, eq⟩ := h.turn_eq (c := c) pattern (by omega)
  have place : s.m.toNat = tail.length := by simp [h.size]
  have ends : b (tail.length + c.length + (s.stale c).length) = 0 := by
    rw [old _ (by omega), ← place]
    apply Lib.cstring_ends
    unfold State.stale at short
    omega
  rw [eq]
  generalize all : tail ++ c ++ s.stale c = t at stored ⊢
  have size : t.length = tail.length + c.length + (s.stale c).length := by
    simp [← all, Nat.add_assoc]
  obtain ⟨b', done, kept⟩ := lineLoop_ends (n := SIZE + 1) (o := s.out) pattern stored
    (by rw [Nat.zero_add, size, ends]) (by omega) (by omega)
  obtain ⟨whole, split⟩ := cut_suffix t
  have length : whole.length = taken t := by
    have parts := congrArg List.length split
    have rest := taken_add t
    simp only [List.length_append] at parts
    omega
  rw [Nat.zero_add] at done kept
  refine ⟨b', ?_, by rw [done]; rfl⟩
  rw [split, Lib.stored_append, Nat.zero_add, length] at stored
  exact stored.2.congr fun i low _ => kept i low

/-- A turn does what it should exactly if the chunk has a newline and no newline stands
behind it in buf before the next NUL. -/
theorem turn_right_iff (pattern : List Byte) (h : s.Carries tail) (some : c ≠ [])
    (room : tail.length + c.length ≤ SIZE) :
    Right pattern s tail c ↔ s.Meets c := by
  have place : s.m.toNat = tail.length := by simp [h.size]
  have limit : (s.stale c).length ≤ SIZE - (tail.length + c.length) := by
    rw [← place]
    exact Lib.cstring_length_le
  unfold Right State.Meets
  rw [place]
  have data : 0 < c.length := List.length_pos_iff.mpr some
  by_cases short : tail.length + c.length + (s.stale c).length < SIZE
  · obtain ⟨b, rest, eq⟩ := turn_ends pattern h short
    by_cases stale : newline ∈ s.stale c
    · -- a stale line is taken too, so m becomes negative
      have far := lt_taken (t := tail ++ c) stale
      rw [List.length_append] at far
      have back :=
        keepRest_back (b := b) (o := s.out ++ printed pattern (cut (tail ++ c ++ s.stale c)).1)
        (by omega) far
      simp only [eq, back, Except.ok.injEq, exists_eq_left', stale, not_true_eq_false, false_and,
        and_false,
        iff_false, not_and]
      intro _ carries
      have size := carries.size
      dsimp only at size
      omega
    · have split := cut_append_plain (t := tail ++ c) stale
      rw [taken_append_plain stale, split] at rest eq
      by_cases line : newline ∈ c
      · have some : 0 < taken (tail ++ c) := taken_pos (by simp [line])
        obtain ⟨b', done, copied⟩ := keepRest_rest
          (o := s.out ++ printed pattern (cut (tail ++ c)).1)
          (Lib.stored_append.mp rest).1 some (by rw [taken_add, List.length_append]) room
        simp only [eq, done, line, stale, short, not_false_eq_true, and_self, iff_true]
        exact ⟨_, rfl, rfl, rfl, copied, cut_rest _⟩
      · have plain : newline ∉ tail ++ c := by simp [h.plain, line]
        simp only [eq, taken_plain plain, keepRest_none, line, false_and, iff_false,
          not_exists, not_and]
        rintro x same - carries
        have size := carries.size
        simp only [← Except.ok.inj same, cut_plain plain, List.length_append] at size
        omega
  · have out := turn_outside (c := c) pattern h (by omega)
    simp [out, short]

theorem turns_right (chunks : List (List Byte)) (h : s.Carries tail)
    (meets : Along (turn pattern) State.Meets s chunks) :
    ∃ s', chunks.foldlM (turn pattern) s = .ok s' ∧
      s'.out = s.out ++ printed pattern (cut (tail ++ chunks.flatten)).1 := by
  induction chunks generalizing s tail with
  | nil => exact ⟨s, rfl, by simp [cut_plain h.plain, printed]⟩
  | cons c chunks ih =>
    obtain ⟨here, later⟩ := meets
    have room := here.2.2
    have place : s.m.toNat = tail.length := by simp [h.size]
    obtain ⟨s₁, done, printed₁, carries⟩ := (turn_right_iff (c := c) pattern h
      (List.ne_nil_of_mem here.1) (by omega)).mpr here
    obtain ⟨s', rest, out⟩ := ih carries (later s₁ done)
    refine ⟨s', by simp [done, rest], ?_⟩
    simp [out, printed₁, printed, cut_append (tail ++ c), ← List.append_assoc]

/-- A read of grep is right exactly when the chunk and what stands behind it in buf meet the
condition, and if this is so at every read, grep prints the lines that match. -/
theorem grep_prints_matching_lines (pattern : List Byte) :
    (∀ s tail c, State.Carries s tail → c ≠ [] → tail.length + c.length ≤ SIZE →
      (Right pattern s tail c ↔ s.Meets c)) ∧
    ∀ files : List (List (List Byte)),
      Along (grep pattern) (fun s f => Along (turn pattern) State.Meets { s with m := 0 } f) boot
        files →
      ∃ s, grepFiles pattern files = .ok s ∧
        s.out = printed pattern (files.flatMap fun f => (cut f.flatten).1) := by
  refine ⟨fun s tail c => turn_right_iff pattern, fun files => ?_⟩
  suffices run : ∀ s, Along (grep pattern)
      (fun s f => Along (turn pattern) State.Meets { s with m := 0 } f)
      s files → ∃ s', files.foldlM (grep pattern) s = .ok s' ∧
        s'.out = s.out ++ printed pattern (files.flatMap fun f => (cut f.flatten).1) from run boot
  induction files with
  | nil => exact fun s _ => ⟨s, rfl, by simp [printed]⟩
  | cons f files ih =>
    rintro s ⟨here, later⟩
    have start : State.Carries { s with m := 0 } [] := ⟨rfl, trivial, List.not_mem_nil⟩
    obtain ⟨s₁, done, out⟩ := turns_right f start here
    obtain ⟨s', rest, out'⟩ := ih s₁ (later s₁ done)
    exact ⟨s', by simp [grep, done, rest], by simp [out, out', printed]⟩

/-- Two files, of which the second reaches further into buf than the first. -/
theorem grep_prints_a_longer_file :
    ∃ s, grepFiles [byte 'a'] [[[byte 'a', newline]], [[byte 'b', newline, byte 'a', newline]]] =
      .ok s ∧
      s.out = [[97, 10], [97, 10]] := by
  have second : ∀ t, grep [byte 'a'] boot [[byte 'a', newline]] = .ok t →
      State.Meets { t with m := 0 } [byte 'b', newline, byte 'a', newline] := by
    intro t done
    rw [← Except.ok.inj done]
    decide +kernel
  obtain ⟨s, done, out⟩ := (grep_prints_matching_lines [byte 'a']).2
    [[[byte 'a', newline]], [[byte 'b', newline, byte 'a', newline]]]
    ⟨⟨by decide +kernel, fun _ _ => trivial⟩,
      fun t done => ⟨⟨second t done, fun _ _ => trivial⟩, fun _ _ => trivial⟩⟩
  exact ⟨s, done, out⟩

/-- A file in two chunks, of which the second is shorter: the line a is printed three times. -/
theorem grep_prints_stale_lines :
    ∃ s, grepFiles [byte 'a'] [[[byte 'a', newline, byte 'a', newline], [byte 'b', newline]]] =
      .ok s ∧ s.out = [[97, 10], [97, 10], [97, 10]] ∧ s.m = -2 := by
  refine ⟨_, rfl, ?_, ?_⟩
  · decide +kernel
  · decide +kernel

end MmapXv6.Grep
