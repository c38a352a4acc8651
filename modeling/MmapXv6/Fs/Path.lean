import MmapXv6.Fs.Dir

/-! Path names of fs.c: skipelem, and namex for namei and nameiparent, over the inodes of a
file system. Locks and reference counts are below this level. -/
namespace MmapXv6

open Lib (Byte byte Bytes cbytes cstring splice Stored ok_bind)
open Function (update update_of_ne update_self)

abbrev slash : Byte := byte '/'

/-- The bytes that skipelem leaves in name for an element of the path. -/
def storeElem (name : Bytes) (elem : List Byte) : Bytes :=
  if DIRSIZ ≤ elem.length then splice name 0 DIRSIZ (cbytes elem)
  else update (splice name 0 elem.length (cbytes elem)) elem.length 0

def skipelem (path : List Byte) (name : Bytes) : Option (List Byte × Bytes) :=
  let path := path.dropWhile (· = slash)
  if path = [] then none
  else
    let elem := path.takeWhile (· ≠ slash)
    let path := path.dropWhile (· ≠ slash)
    some (path.dropWhile (· = slash), storeElem name elem)

/-- The loop of namex. The turns are at most as many as the bytes of the path. -/
def namexLoop (fs : Nat → Inode) (parent : Bool) :
    Nat → List Byte → Bytes → Nat → Except Panic (Option (Nat × Bytes))
  | 0, _, _, _ => .error .loops
  | fuel + 1, path, name, ip =>
    match skipelem path name with
    | none => if parent then .ok none else .ok (some (ip, name))
    | some (path, name) =>
      if (fs ip).type ≠ .dir then .ok none
      else if parent ∧ path = [] then .ok (some (ip, name))
      else do
        match ← dirlookup (fs ip) name with
        | none => .ok none
        | some (next, _) => namexLoop fs parent fuel path name next

def startOf (cwd : Nat) (path : List Byte) : Nat := if path.head? = some slash then ROOTINO else cwd

def namex (fs : Nat → Inode) (cwd : Nat) (path : List Byte) (parent : Bool) (name : Bytes) :
    Except Panic (Option (Nat × Bytes)) :=
  namexLoop fs parent (path.length + 1) path name (startOf cwd path)

/-- The array name of namei is not initialised. -/
def namei (fs : Nat → Inode) (cwd : Nat) (path : List Byte) (junk : Bytes) :
    Except Panic (Option Nat) :=
  (namex fs cwd path false junk).map (Option.map Prod.fst)

def nameiparent (fs : Nat → Inode) (cwd : Nat) (path : List Byte) (name : Bytes) :
    Except Panic (Option (Nat × Bytes)) :=
  namex fs cwd path true name

/-! The elements of a path, and the walk along them. -/

def elements (path : List Byte) : List (List Byte) := (path.splitOn slash).filter (· ≠ [])

def components (path : List Byte) : List (List Byte) := (elements path).map (List.take DIRSIZ)

/-- skipelem until it returns 0: none if it does not within so many calls. -/
def skipelems : Nat → List Byte → Bytes → Option (List (List Byte))
  | 0, _, _ => none
  | fuel + 1, path, name =>
    match skipelem path name with
    | none => some []
    | some (path, name) => (skipelems fuel path name).map (dirname name :: ·)

def walkOne (fs : Nat → Inode) : Option Nat → List Byte → Except Panic (Option Nat)
  | none, _ => .ok none
  | some ip, c =>
    if (fs ip).type ≠ .dir then .ok none
    else (dirlookup (fs ip) (cbytes c)).map (Option.map Prod.fst)

theorem elements_slash (path : List Byte) : elements (slash :: path) = elements path := by
  have split := List.splitOn_append_cons_self (a := slash) [] path
  rw [List.nil_append] at split
  simp [elements, split]

theorem elements_slashes (path : List Byte) :
    elements (path.dropWhile (· = slash)) = elements path := by
  induction path with
  | nil => rfl
  | cons c path ih =>
    by_cases here : c = slash
    · simp only [here, decide_true, List.dropWhile_cons_of_pos, ih, elements_slash]
    · simp [here]

theorem elements_elem {e rest : List Byte} (plain : slash ∉ e) (some : e ≠ [])
    (after : ∀ c, rest.head? = .some c → c = slash) :
    elements (e ++ rest) = e :: elements rest := by
  cases rest with
  | nil => simp [elements, List.splitOn_eq_singleton plain, some]
  | cons c rest =>
    have slash' := after c rfl
    subst slash'
    rw [elements_slash]
    simp [elements, List.splitOn_append_cons_self_of_not_mem plain, some]

theorem head_dropWhile {p : Byte → Bool} {path : List Byte} {c : Byte}
    (head : (path.dropWhile p).head? = some c) : p c = false := by
  have := List.head?_dropWhile_not p path
  rw [head] at this
  simpa using this

theorem elements_cons {c : Byte} {path : List Byte} (other : c ≠ slash) : elements (c :: path) =
    (c :: path).takeWhile (· ≠ slash) :: elements ((c :: path).dropWhile (· ≠ slash)) := by
  have split := List.takeWhile_append_dropWhile (p := (· ≠ slash)) (l := c :: path)
  rw [← elements_elem, split]
  · intro mem
    simpa using List.all_eq_true.mp List.all_takeWhile _ mem
  · simp [other]
  · intro d head
    simpa using head_dropWhile head

theorem skipelem_cases (path : List Byte) (name : Bytes) :
    skipelem path name = none ∧ elements path = [] ∨
    ∃ e rest, skipelem path name = some (rest, storeElem name e) ∧
      elements path = e :: elements rest ∧
      rest.length < path.length ∧ (elements rest = [] → rest = []) := by
  have shorter := (List.dropWhile_sublist (l := path) (· = slash)).length_le
  rw [← elements_slashes path, skipelem]
  cases at_ : path.dropWhile (· = slash) with
  | nil => simp [elements, List.splitOn_nil]
  | cons c rest =>
    have other : c ≠ slash := by simpa using head_dropWhile (p := (· = slash)) (by rw [at_]; rfl)
    refine .inr ⟨(c :: rest).takeWhile (· ≠ slash),
      ((c :: rest).dropWhile (· ≠ slash)).dropWhile (· = slash),
      by simp only [reduceCtorEq, if_false], ?_, ?_, ?_⟩
    · rw [elements_slashes, elements_cons other]
    · have first := (List.dropWhile_sublist (l := rest) (· ≠ slash)).length_le
      have last := (List.dropWhile_sublist (l := rest.dropWhile (· ≠ slash)) (· = slash)).length_le
      rw [at_] at shorter
      simp only [List.dropWhile_cons, other, ne_eq, not_false_eq_true, decide_true, if_true,
        List.length_cons] at *
      omega
    · intro none
      cases end_ : ((c :: rest).dropWhile (· ≠ slash)).dropWhile (· = slash) with
      | nil => rfl
      | cons d more =>
        have other' : d ≠ slash := by
          simpa using head_dropWhile (p := (· = slash)) (by rw [end_]; rfl)
        rw [end_, elements_cons other'] at none
        cases none

theorem dirname_storeElem (name : Bytes) (e : List Byte) :
    dirname (storeElem name e) = e.take DIRSIZ := by
  refine Lib.cstring_take (Lib.stored_of_bytes fun i small => ?_) fun short => ?_
  · rw [List.length_take] at small
    rw [List.getElem_take, ← Lib.cbytes_get e (by omega), storeElem]
    split
    · rw [Lib.splice_at (by omega)]
    · rw [update_of_ne (by omega), Lib.splice_at (by omega)]
  · rw [storeElem, if_neg (by omega), Nat.zero_add, update_self]

theorem dirname_cbytes (e : List Byte) : dirname (cbytes e) = e.take DIRSIZ := by
  refine Lib.cstring_take (Lib.stored_of_bytes fun i small => ?_) fun short => by simp [cbytes]
  rw [List.length_take] at small
  rw [List.getElem_take, Nat.zero_add, Lib.cbytes_get e (by omega)]

theorem dirlookup_congr {name other : Bytes} (same : dirname name = dirname other) (dp : Inode) :
    dirlookup dp name = dirlookup dp other := by
  have loop : ∀ fuel off, dirlookupLoop dp name fuel off = dirlookupLoop dp other fuel off := by
    intro fuel
    induction fuel with
    | zero => exact fun _ => rfl
    | succ fuel ih => intro off; simp only [dirlookupLoop, namecmp_eq_zero, same, ih]
  simp only [dirlookup, loop]

theorem skipelems_components (fuel : Nat) (path : List Byte) (name : Bytes)
    (enough : path.length < fuel) :
    skipelems fuel path name = some (components path) := by
  induction fuel generalizing path name with
  | zero => omega
  | succ fuel ih =>
    rcases skipelem_cases path name with ⟨done, none⟩ | ⟨e, rest, skipped, split, shorter, -⟩
    · simp [skipelems, done, components, none]
    · simp [skipelems, skipped, components, split, dirname_storeElem, ih rest _ (by omega)]

theorem dirlookup_storeElem (name : Bytes) (e : List Byte) (dp : Inode) :
    dirlookup dp (storeElem name e) = dirlookup dp (cbytes (e.take DIRSIZ)) :=
  dirlookup_congr (by rw [dirname_storeElem, dirname_cbytes, List.take_take, Nat.min_self]) dp

theorem walkOne_none (fs : Nat → Inode) (cs : List (List Byte)) :
    cs.foldlM (walkOne fs) none = .ok none := by
  induction cs with
  | nil => rfl
  | cons c cs ih => simpa [walkOne] using ih

theorem namexLoop_walk (fs : Nat → Inode) (fuel : Nat) (path : List Byte) (name : Bytes) (ip : Nat)
    (enough : path.length < fuel) :
    (namexLoop fs false fuel path name ip).map (Option.map Prod.fst) =
      (components path).foldlM (walkOne fs) (some ip) := by
  induction fuel generalizing path name ip with
  | zero => omega
  | succ fuel ih =>
    rcases skipelem_cases path name with ⟨done, none⟩ | ⟨e, rest, skipped, split, shorter, -⟩
    · simp [namexLoop, done, components, none, Except.map]
    · simp only [namexLoop, skipped, components, split, List.map_cons, List.foldlM_cons, walkOne]
      by_cases dir : (fs ip).type = .dir
      · simp only [dir, ne_eq, not_true_eq_false, if_false, Bool.false_eq_true, false_and,
          dirlookup_storeElem name e]
        cases dirlookup (fs ip) (cbytes (e.take DIRSIZ)) with
        | error e => rfl
        | ok found =>
          cases found with
          | none => simpa [Except.map] using (walkOne_none fs _).symm
          | some entry => exact ih rest _ entry.1 (by omega)
      · simpa [dir, Except.map] using (walkOne_none fs _).symm

theorem namexLoop_parent (fs : Nat → Inode) (fuel : Nat) (path : List Byte) (name : Bytes)
    (ip : Nat) (enough : path.length < fuel) (some : elements path ≠ []) :
    (namexLoop fs false fuel path name ip).map (Option.map Prod.fst) =
      namexLoop fs true fuel path name ip >>= fun
        | none => .ok none
        | .some (dp, last) => (dirlookup (fs dp) last).map (Option.map Prod.fst) := by
  induction fuel generalizing path name ip with
  | zero => omega
  | succ fuel ih =>
    rcases skipelem_cases path name with ⟨-, none⟩ | ⟨e, rest, skipped, split, shorter, empty⟩
    · exact absurd none some
    · simp only [namexLoop, skipped]
      by_cases dir : (fs ip).type = .dir
      · simp only [dir, ne_eq, not_true_eq_false, if_false, Bool.false_eq_true, false_and, true_and]
        by_cases last : rest = []
        · obtain ⟨fuel, rfl⟩ := Nat.exists_eq_add_of_lt (show 0 < fuel by omega)
          have ended : ∀ name ip, namexLoop fs false (0 + fuel + 1) [] name ip =
              .ok (.some (ip, name)) :=
            fun _ _ => rfl
          simp only [last, if_true, ok_bind, ended]
          cases dirlookup (fs ip) (storeElem name e) with
          | error e => rfl
          | ok found => cases found <;> rfl
        · simp only [last, if_false]
          cases dirlookup (fs ip) (storeElem name e) with
          | error e => rfl
          | ok found =>
            cases found with
            | none => rfl
            | some entry => exact ih rest _ entry.1 (by omega) (mt empty last)
      · simp [dir, Except.map]

theorem namexLoop_no_parent (fs : Nat → Inode) (fuel : Nat) (path : List Byte)
    (name : Bytes) (ip : Nat)
    (none : elements path = []) : namexLoop fs true (fuel + 1) path name ip = .ok .none := by
  rcases skipelem_cases path name with ⟨done, -⟩ | ⟨e, rest, -, split, -⟩
  · simp [namexLoop, done]
  · simp [split] at none

/-- Path names resolve as they should, and namei and nameiparent agree. -/
theorem path_resolution (fs : Nat → Inode) (cwd : Nat) (path : List Byte) (name junk : Bytes) :
    skipelems (path.length + 1) path name = some (components path) ∧
    namei fs cwd path junk = (components path).foldlM (walkOne fs) (some (startOf cwd path)) ∧
    (components path ≠ [] → ∀ ip, namei fs cwd path junk = .ok (some ip) ↔
      ∃ dp last off, nameiparent fs cwd path name = .ok (some (dp, last)) ∧
        dirlookup (fs dp) last = .ok (some (ip, off))) ∧
    (components path = [] → nameiparent fs cwd path name = .ok none) := by
  have walk : ∀ name, (namexLoop fs false (path.length + 1) path name (startOf cwd path)).map
      (Option.map Prod.fst) = _ := fun name =>
    namexLoop_walk fs (path.length + 1) path name (startOf cwd path) (Nat.lt_succ_self _)
  have same : components path = [] ↔ elements path = [] := by simp [components]
  refine ⟨skipelems_components _ path name (Nat.lt_succ_self _), walk junk, fun some ip => ?_,
    fun none => ?_⟩
  · have two := namexLoop_parent fs (path.length + 1) path name (startOf cwd path)
      (Nat.lt_succ_self _)
      (mt same.mpr some)
    rw [namei, namex, walk junk, ← walk name, two, nameiparent, namex, Lib.bind_ok]
    constructor
    · rintro ⟨found, parent, looked⟩
      cases found with
      | none => cases looked
      | some entry =>
        refine ⟨entry.1, entry.2, ?_⟩
        cases at_ : dirlookup (fs entry.1) entry.2 with
        | error e => simp [at_, Except.map] at looked
        | ok found =>
          cases found with
          | none => simp [at_, Except.map] at looked
          | some child =>
            simp only [at_, Except.map, Option.map_some, Except.ok.injEq,
              Option.some.injEq] at looked
            exact ⟨child.2, parent, by rw [← looked]⟩
    · rintro ⟨dp, last, off, parent, looked⟩
      exact ⟨_, parent, by simp [looked, Except.map]⟩
  · exact namexLoop_no_parent fs path.length path name _ (same.mp none)

end MmapXv6
