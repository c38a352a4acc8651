import MmapXv6.Lib.Bytes
import MmapXv6.Lib.Cstring
import MmapXv6.Vm.File

/-! Directories of fs.c: dirlookup and dirlink on the bytes of a directory, with strncmp and
strncpy of string.c, and the zeroing of an entry by sys_unlink. The directory is a finite map
from names, compared on their first DIRSIZ bytes up to a NUL, to inode numbers. -/
namespace MmapXv6

open Lib (Byte Bytes cstring half byteOf splice Reaches bind_ok ok_bind)
open Function (update update_of_ne update_self)

abbrev ROOTINO : Nat := 1
abbrev DIRSIZ : Nat := 14
abbrev DIRENT : Nat := 16   -- sizeof(struct dirent)

/-- strncmp of the strings at p + i and q + i. -/
def strncmp (p q : Bytes) : Nat → Nat → Int
  | 0, _ => 0
  | n + 1, i =>
    if p i ≠ 0 ∧ p i = q i then strncmp p q n (i + 1) else (p i).toNat - (q i).toNat

def fillZero (s : Bytes) : Nat → Nat → Bytes
  | 0, _ => s
  | n + 1, i => fillZero (update s i 0) n (i + 1)

/-- strncpy to s + i from t + i. -/
def strncpy (s t : Bytes) : Nat → Nat → Bytes
  | 0, _ => s
  | n + 1, i =>
    if t i ≠ 0 then strncpy (update s i (t i)) t n (i + 1)
    else fillZero (update s i (t i)) n (i + 1)

def namecmp (s t : Bytes) : Int := strncmp s t DIRSIZ 0

def dirent (inum : Nat) (name : Bytes) : Bytes :=
  fun j => if j < 2 then byteOf inum j else name (j - 2)

def dirlookupLoop (dp : Inode) (name : Bytes) : Nat → Nat → Except Panic (Option (Nat × Nat))
  | 0, _ => .error .loops
  | fuel + 1, off =>
    if off < dp.size then do
      let (r, de) ← readi dp off DIRENT
      if r ≠ DIRENT then .error .dirlinkRead
      else if half de 0 = 0 then dirlookupLoop dp name fuel (off + DIRENT)
      else if namecmp name (fun i => de (2 + i)) = 0 then .ok (some (half de 0, off))
      else dirlookupLoop dp name fuel (off + DIRENT)
    else .ok none

/-- The inode number that a name has in the directory, and the offset of its entry. -/
def dirlookup (dp : Inode) (name : Bytes) : Except Panic (Option (Nat × Nat)) :=
  if dp.type ≠ .dir then .error .dirlookupNotDir else dirlookupLoop dp name (dp.size + 1) 0

def dirlinkLoop (dp : Inode) : Nat → Nat → Except Panic Nat
  | 0, _ => .error .loops
  | fuel + 1, off =>
    if off < dp.size then do
      let (r, de) ← readi dp off DIRENT
      if r ≠ DIRENT then .error .dirlinkRead
      else if half de 0 = 0 then .ok off
      else dirlinkLoop dp fuel (off + DIRENT)
    else .ok off

/-- strncpy stores every byte of de.name, so what it held before does not matter. -/
def dirlink (dp : Inode) (name : Bytes) (inum : Nat) : Except Panic (Int × Inode) := do
  match ← dirlookup dp name with
  | some _ => .ok (-1, dp)
  | none =>
    let off ← dirlinkLoop dp (dp.size + 1) 0
    let (r, dp) ← writei dp (dirent inum (strncpy (fun _ => 0) name DIRSIZ 0)) off DIRENT
    if r ≠ DIRENT then .error .dirlink else .ok (0, dp)

def zeroEntry (dp : Inode) (off : Nat) : Except Panic Inode := do
  let (r, dp) ← writei dp (fun _ => 0) off DIRENT
  if r ≠ DIRENT then .error .unlinkWritei else .ok dp

inductive DirAct
  | link (name : Bytes) (inum : Nat)
  | unlink (name : Bytes)

def dirStep (dp : Inode) : DirAct → Except Panic Inode
  | .link name inum => do
    let (_, dp) ← dirlink dp name inum
    .ok dp
  | .unlink name => do
    match ← dirlookup dp name with
    | none => .ok dp
    | some (_, off) => zeroEntry dp off

/-! What is compared of a name, and the entries of a directory. -/

/-- A name on its first DIRSIZ bytes up to a NUL. -/
def dirname (name : Bytes) : List Byte := cstring name DIRSIZ 0

def Inode.inumAt (dp : Inode) (k : Nat) : Nat := half dp.data (DIRENT * k)

def Inode.nameAt (dp : Inode) (k : Nat) : List Byte :=
  dirname fun i => dp.data (DIRENT * k + (2 + i))

/-- A directory of n entries, of which no two live ones have one name. -/
structure Inode.DirOk (dp : Inode) (n : Nat) : Prop where
  type : dp.type = .dir
  size : dp.size = DIRENT * n
  small : DIRENT * n ≤ MAXFILE * BSIZE
  unique : ∀ j k, j < n → k < n → dp.inumAt j ≠ 0 → dp.inumAt k ≠ 0 →
    dp.nameAt j = dp.nameAt k → j = k

def Inode.find (dp : Inode) (n : Nat) (name : List Byte) : Option Nat :=
  (List.range n).find? fun k => dp.inumAt k ≠ 0 ∧ dp.nameAt k = name

section Strings
variable {p q s t : Bytes} {n i j : Nat}

theorem strncmp_eq_zero : strncmp p q n i = 0 ↔ cstring p n i = cstring q n i := by
  induction n generalizing i with
  | zero => simp [strncmp, cstring]
  | succ n ih =>
    by_cases same : p i = q i
    · by_cases ends : q i = 0
      · simp [strncmp, cstring, same, ends]
      · simp [strncmp, cstring, same, ends, ih]
    · have differ : ((p i).toNat : Int) - (q i).toNat ≠ 0 := by
        intro eq
        exact same (UInt8.toNat_inj.mp (by omega))
      rw [strncmp, if_neg fun both => same both.2, iff_false_left differ]
      by_cases ends : p i = 0
      · have ends' : q i ≠ 0 := fun zero => same (ends.trans zero.symm)
        simp [cstring, ends, ends']
      · by_cases ends' : q i = 0 <;> simp [cstring, ends, ends', same]

theorem namecmp_eq_zero : namecmp s t = 0 ↔ dirname s = dirname t := strncmp_eq_zero

theorem fillZero_before (low : j < i) : fillZero s n i j = s j := by
  induction n generalizing s i with
  | zero => rfl
  | succ n ih => rw [fillZero, ih (by omega), update_of_ne (by omega)]

theorem strncpy_before (low : j < i) : strncpy s t n i j = s j := by
  induction n generalizing s i with
  | zero => rfl
  | succ n ih =>
    rw [strncpy]
    split
    · rw [ih (by omega), update_of_ne (by omega)]
    · rw [fillZero_before (by omega), update_of_ne (by omega)]

theorem cstring_strncpy : cstring (strncpy s t n i) n i = cstring t n i := by
  induction n generalizing s i with
  | zero => rfl
  | succ n ih =>
    by_cases ends : t i = 0
    · simp [cstring, strncpy, ends, fillZero_before]
    · simp [cstring, strncpy, ends, strncpy_before, ih]

end Strings

section Entries
variable {dp dp' : Inode} {n k : Nat} {key : List Byte}

theorem Inode.DirOk.read (h : dp.DirOk n) (below : k < n) :
    readi dp (DIRENT * k) DIRENT = .ok (DIRENT, fun i => dp.data (DIRENT * k + i)) := by
  have size := h.size
  have small := h.small
  simp only [DIRENT, MAXFILE, BSIZE, NDIRECT, NINDIRECT] at size small ⊢
  rw [readi, if_neg (by simp [h.type]), if_neg (by omega), if_neg (by omega)]

theorem Inode.DirOk.below (h : dp.DirOk n) : DIRENT * k < dp.size ↔ k < n := by
  have size := h.size
  simp only [DIRENT] at size ⊢
  omega

theorem Inode.DirOk.fuel (h : dp.DirOk n) : n < 0 + (dp.size + 1) := by
  have size := h.size
  simp only [DIRENT] at size
  omega

theorem half_at (dp : Inode) (k : Nat) : half (fun i => dp.data (DIRENT * k + i)) 0 = dp.inumAt k :=
  Lib.half_congr fun r _ => by simp

theorem Inode.DirOk.lookupLoop (h : dp.DirOk n) (name : Bytes) (j fuel : Nat) (inside : j ≤ n)
    (enough : n < j + fuel) :
    dirlookupLoop dp name fuel (DIRENT * j) =
      .ok (((List.range' j (n - j)).find? fun k => dp.inumAt k ≠ 0 ∧ dp.nameAt k = dirname name).map
        fun k => (dp.inumAt k, DIRENT * k)) := by
  induction fuel generalizing j with
  | zero => omega
  | succ fuel ih =>
    by_cases more : j < n
    · have rest := ih (j + 1) (by omega) (by omega)
      have left : n - j = n - (j + 1) + 1 := by omega
      have key : dirname (fun i => dp.data (DIRENT * j + (2 + i))) = dp.nameAt j := rfl
      rw [Nat.mul_succ] at rest
      rw [left, List.range'_succ, dirlookupLoop, if_pos (h.below.mpr more), h.read more]
      simp only [ok_bind, ne_eq, not_true_eq_false, if_false, half_at, namecmp_eq_zero, key, rest]
      by_cases free : dp.inumAt j = 0
      · simp [free]
      · by_cases same : dp.nameAt j = dirname name
        · simp [free, same]
        · simp [free, same, Ne.symm same]
    · have none : j = n := by omega
      subst none
      simp [dirlookupLoop, h.below]

theorem Inode.DirOk.lookup (h : dp.DirOk n) (name : Bytes) : dirlookup dp name =
    .ok ((dp.find n (dirname name)).map fun k => (dp.inumAt k, DIRENT * k)) := by
  have loop := h.lookupLoop name 0 (dp.size + 1) (Nat.zero_le n) h.fuel
  rw [dirlookup, if_neg (by simp [h.type]), Inode.find, List.range_eq_range']
  exact loop

theorem Inode.DirOk.linkLoop (h : dp.DirOk n) (j fuel : Nat) (inside : j ≤ n)
    (enough : n < j + fuel) :
    ∃ k, dirlinkLoop dp fuel (DIRENT * j) = .ok (DIRENT * k) ∧ k ≤ n ∧ (k < n → dp.inumAt k = 0) ∧
      (k = n → ∀ i, j ≤ i → i < n → dp.inumAt i ≠ 0) := by
  induction fuel generalizing j with
  | zero => omega
  | succ fuel ih =>
    by_cases more : j < n
    · rw [dirlinkLoop, if_pos (h.below.mpr more), h.read more]
      simp only [ok_bind, ne_eq, not_true_eq_false, if_false, half_at]
      by_cases free : dp.inumAt j = 0
      · exact ⟨j, by simp [free], inside, fun _ => free, fun last => by omega⟩
      · obtain ⟨k, found, bound, empty, full⟩ := ih (j + 1) (by omega) (by omega)
        rw [Nat.mul_succ] at found
        refine ⟨k, by simp [free, found], bound, empty, fun last i low high => ?_⟩
        rcases Nat.eq_or_lt_of_le low with rfl | later
        · exact free
        · exact full last i later high
    · exact ⟨n, by simp [dirlinkLoop, h.below, show j = n by omega], Nat.le_refl n,
        fun less => by omega, fun _ i low high => by omega⟩

structure EntrySet (dp dp' : Inode) (n k inum : Nat) (name : List Byte) : Prop where
  ok : dp'.type = .dir ∧ dp'.size = DIRENT * (max n (k + 1)) ∧
    DIRENT * (max n (k + 1)) ≤ MAXFILE * BSIZE
  inum : ∀ j, dp'.inumAt j = if j = k then inum else dp.inumAt j
  name : ∀ j, dp'.nameAt j = if j = k then name else dp.nameAt j

theorem half_dirent (inum : Nat) (name : Bytes) : half (dirent inum name) 0 = inum % 2 ^ 16 := by
  have low : dirent inum name 0 = byteOf inum 0 := rfl
  have high : dirent inum name 1 = byteOf inum 1 := rfl
  rw [half, Nat.zero_add, low, high, Lib.byteOf_toNat, Lib.byteOf_toNat]
  omega

theorem Inode.DirOk.write (h : dp.DirOk n) (inum : Nat) (name : Bytes) (place : k ≤ n)
    (room : DIRENT * (k + 1) ≤ MAXFILE * BSIZE) :
    ∃ dp', writei dp (dirent inum name) (DIRENT * k) DIRENT =
      .ok (DIRENT, dp') ∧ EntrySet dp dp' n k (inum % 2 ^ 16) (dirname name) := by
  have size := h.size
  have small := h.small
  simp only [DIRENT] at size
  refine ⟨{ dp with
      data := splice dp.data (DIRENT * k) DIRENT (dirent inum name)
      size := if dp.size < DIRENT * k + DIRENT then DIRENT * k + DIRENT else dp.size },
        ?_, ?_, ?_, ?_⟩
  · rw [writei, if_neg (by simp [h.type]), if_neg, if_neg]
    · rfl
    all_goals
      simp only [DIRENT, MAXFILE, BSIZE, NDIRECT, NINDIRECT] at small room ⊢
      omega
  · refine ⟨h.type, ?_, ?_⟩
    · simp only [DIRENT] at size ⊢
      split <;> omega
    · simp only [DIRENT] at small room ⊢
      omega
  · intro j
    by_cases here : j = k
    · rw [if_pos here, here, ← half_dirent inum name]
      refine Lib.half_congr fun r small => ?_
      rw [Nat.zero_add]
      exact Lib.splice_at (small.trans (by decide))
    · rw [if_neg here]
      refine Lib.half_congr fun r _ => Lib.splice_outside ?_
      simp only [DIRENT]
      omega
  · intro j
    by_cases here : j = k
    · rw [if_pos here, here]
      refine Lib.cstring_congr fun i _ high => (Lib.splice_at ?_).trans ?_
      · simp only [DIRENT, DIRSIZ] at high ⊢
        omega
      · rw [dirent, if_neg (by omega), Nat.add_sub_cancel_left]
    · rw [if_neg here]
      refine Lib.cstring_congr fun i _ high => Lib.splice_outside ?_
      simp only [DIRENT, DIRSIZ] at high ⊢
      omega

theorem Inode.DirOk.find_eq (h : dp.DirOk n) : dp.find n key = some k ↔
    k < n ∧ dp.inumAt k ≠ 0 ∧ dp.nameAt k = key := by
  constructor
  · intro found
    have mem := List.mem_of_find?_eq_some found
    have test := List.find?_some found
    exact ⟨List.mem_range.mp mem, by simpa using test⟩
  · rintro ⟨below, live, same⟩
    obtain ⟨j, found⟩ : ∃ j, dp.find n key = some j := by
      rw [← Option.isSome_iff_exists, Inode.find, List.find?_isSome]
      exact ⟨k, List.mem_range.mpr below, by simp [live, same]⟩
    have mem := List.mem_range.mp (List.mem_of_find?_eq_some found)
    have test := List.find?_some found
    simp only [ne_eq, decide_eq_true_eq] at test
    rw [found, h.unique j k mem below test.1 live (test.2.trans same.symm)]

theorem EntrySet.find_other {m inum : Nat} {name : List Byte} (set : EntrySet dp dp' n k inum name)
    (h : dp.DirOk n) (h' : dp'.DirOk m) (size : m = max n (k + 1)) (new : inum ≠ 0 → key ≠ name)
    (old : k < n → dp.inumAt k ≠ 0 → dp.nameAt k ≠ key) (place : k ≤ n) :
      dp'.find m key = dp.find n key := by
  ext j
  rw [h.find_eq, h'.find_eq, set.inum, set.name]
  by_cases here : j = k
  · subst here
    simp only [if_true]
    constructor
    · rintro ⟨-, live, same⟩
      exact absurd same.symm (new live)
    · rintro ⟨below, live, same⟩
      exact absurd same (old below live)
  · simp only [if_neg here]
    have : j < m ↔ j < n := by omega
    rw [this]

theorem EntrySet.dirOk {inum : Nat} {name : List Byte} (set : EntrySet dp dp' n k inum name)
    (h : dp.DirOk n)
    (place : k ≤ n) (new : inum ≠ 0 → ∀ j, j < n → dp.inumAt j ≠ 0 → dp.nameAt j ≠ name) :
    dp'.DirOk (max n (k + 1)) := by
  refine ⟨set.ok.1, set.ok.2.1, set.ok.2.2, fun i j lt lt' live live' same => ?_⟩
  rw [set.inum] at live live'
  rw [set.name, set.name] at same
  by_cases here : i = k <;> by_cases here' : j = k
  · rw [here, here']
  · simp only [here, here', if_true, if_false] at live live' same
    exact absurd same.symm (new live j (by omega) live')
  · simp only [here, here', if_true, if_false] at live live' same
    exact absurd same (new live' i (by omega) live)
  · simp only [here, here', if_false] at live live' same
    exact h.unique i j (by omega) (by omega) live live' same

theorem Inode.DirOk.find_none (h : dp.DirOk n) (absent : dp.find n key = none) (j : Nat)
    (below : j < n) (live : dp.inumAt j ≠ 0) : dp.nameAt j ≠ key := by
  intro same
  have := h.find_eq.mpr ⟨below, live, same⟩
  simp [absent] at this

end Entries

inductive Linked (dp : Inode) (n : Nat) (name : Bytes) (inum : Nat) :
    Except Panic (Int × Inode) → Prop
  | present {k : Nat} : dp.find n (dirname name) = some k → Linked dp n name inum (.ok (-1, dp))
  | added {dp' : Inode} {k : Nat} : dp.find n (dirname name) = none → k ≤ n →
    (k < n → dp.inumAt k = 0) →
      EntrySet dp dp' n k (inum % 2 ^ 16) (dirname name) → dp'.DirOk (max n (k + 1)) →
      Linked dp n name inum (.ok (0, dp'))
  | full : dp.find n (dirname name) = none → (∀ k, k < n → dp.inumAt k ≠ 0) →
    dp.size = MAXFILE * BSIZE →
      Linked dp n name inum (.error .dirlink)

theorem Inode.DirOk.link {dp : Inode} {n : Nat} (h : dp.DirOk n) (name : Bytes) (inum : Nat) :
    Linked dp n name inum (dirlink dp name inum) := by
  cases absent : dp.find n (dirname name) with
  | some k =>
    have refused : dirlink dp name inum = .ok (-1, dp) := by simp [dirlink, h.lookup, absent]
    exact refused ▸ .present absent
  | none =>
    obtain ⟨k, found, bound, empty, full⟩ := h.linkLoop 0 (dp.size + 1) (Nat.zero_le n) h.fuel
    have stored : dirname (strncpy (fun _ => 0) name DIRSIZ 0) = dirname name := cstring_strncpy
    rw [Nat.mul_zero] at found
    by_cases room : DIRENT * (k + 1) ≤ MAXFILE * BSIZE
    · obtain ⟨dp', written, set⟩ := h.write inum (strncpy (fun _ => 0) name DIRSIZ 0) bound room
      have linked : dirlink dp name inum = .ok (0, dp') := by
        simp [dirlink, h.lookup, absent, found, written]
      rw [stored] at set
      exact linked ▸ .added absent bound empty set (set.dirOk h bound fun _ => h.find_none absent)
    · have size := h.size
      have small := h.small
      have last : k = n ∧ dp.size = MAXFILE * BSIZE := by
        simp only [DIRENT, MAXFILE, BSIZE, NDIRECT, NINDIRECT] at size small room ⊢
        omega
      have refused : ∀ src, writei dp src (DIRENT * k) DIRENT = .ok (-1, dp) := by
        intro src
        rw [writei, if_neg (by simp [h.type])]
        simp only [DIRENT, MAXFILE, BSIZE, NDIRECT, NINDIRECT] at size small room ⊢
        rw [if_neg (by omega), if_pos (by omega)]
      have failed : dirlink dp name inum = .error .dirlink := by
        simp [dirlink, h.lookup, absent, found, refused]
      exact failed ▸ .full absent (fun j below => full last.1 j (Nat.zero_le j) below) last.2

theorem Inode.DirOk.zero {dp : Inode} {n k : Nat} (h : dp.DirOk n) (below : k < n) :
    ∃ dp', zeroEntry dp (DIRENT * k) = .ok dp' ∧ EntrySet dp dp' n k 0 [] ∧ dp'.DirOk n := by
  have blank : dirent 0 (fun _ => 0) = fun _ => 0 := by
    funext j
    simp [dirent, byteOf]
  have room : DIRENT * (k + 1) ≤ MAXFILE * BSIZE := (Nat.mul_le_mul_left _ below).trans h.small
  obtain ⟨dp', written, set⟩ := h.write 0 (fun _ => 0) (Nat.le_of_lt below) room
  rw [blank] at written
  have kept := set.dirOk h (Nat.le_of_lt below) fun live => absurd rfl live
  rw [Nat.max_eq_left below] at kept
  exact ⟨dp', by simp [zeroEntry, written], set, kept⟩

def EmptyDir (dp : Inode) : Prop := dp.type = .dir ∧ dp.size = 0

theorem dirStep_keeps {dp dp' : Inode} {n : Nat} {a : DirAct} (h : dp.DirOk n)
    (done : dirStep dp a = .ok dp') :
    ∃ m, dp'.DirOk m := by
  cases a with
  | link name inum =>
    obtain ⟨⟨r, dp₁⟩, linked, same⟩ := bind_ok.mp done
    cases same
    have ends := h.link name inum
    rw [linked] at ends
    cases ends with
    | present => exact ⟨n, h⟩
    | added _ _ _ _ kept => exact ⟨_, kept⟩
  | unlink name =>
    cases found : dp.find n (dirname name) with
    | none =>
      simp only [dirStep, h.lookup, found, Option.map_none, ok_bind, Except.ok.injEq] at done
      exact ⟨n, done ▸ h⟩
    | some k =>
      obtain ⟨dp₁, zeroed, -, kept⟩ := h.zero (h.find_eq.mp found).1
      simp only [dirStep, h.lookup, found, Option.map_some, ok_bind, zeroed,
        Except.ok.injEq] at done
      exact ⟨n, done ▸ kept⟩

theorem reached_dirOk {dp : Inode} (run : Reaches dirStep (fun _ _ => True) EmptyDir dp) :
    ∃ n, dp.DirOk n := by
  refine run.invariant (fun dp => ∃ n, dp.DirOk n) ?_ ?_
  · rintro dp ⟨type, size⟩
    exact ⟨0, type, by simp [size], by simp, fun j k none => by omega⟩
  · rintro dp a dp' ⟨n, h⟩ - done
    exact dirStep_keeps h done

def Inode.UniqueNames (dp : Inode) : Prop :=
  ∀ j k, DIRENT * j < dp.size → DIRENT * k < dp.size → dp.inumAt j ≠ 0 → dp.inumAt k ≠ 0 →
    dp.nameAt j = dp.nameAt k → j = k

def SameOthers (dp dp' : Inode) (name : Bytes) : Prop :=
  ∀ other, dirname other ≠ dirname name → dirlookup dp' other = dirlookup dp other

theorem EntrySet.sameOthers {dp dp' : Inode} {n k m inum : Nat} {key : List Byte} {name : Bytes}
    (set : EntrySet dp dp' n k inum key) (h : dp.DirOk n) (h' : dp'.DirOk m)
    (size : m = max n (k + 1)) (place : k ≤ n) (new : inum ≠ 0 → key = dirname name)
    (old : k < n → dp.inumAt k ≠ 0 → dp.nameAt k = dirname name) : SameOthers dp dp' name := by
  intro other differs
  have found := set.find_other h h' size (fun live same => differs (same.trans (new live)))
    (fun below live same => differs (same.symm.trans (old below live))) place
  rw [h.lookup, h'.lookup, found]
  refine congrArg Except.ok (Option.map_congr fun j at_ => ?_)
  obtain ⟨below, live, same⟩ := h.find_eq.mp at_
  have apart : j ≠ k := by
    rintro rfl
    exact differs (same.symm.trans (old below live))
  rw [set.inum, if_neg apart]

/-- A directory that dirlink and unlink made is a finite map. dirlookup finds one entry at
most, dirlink refuses exactly the names that are there, and adds or removes one name at a
time. A directory with no free entry and of the largest size stops dirlink with a panic. -/
theorem directories_are_maps {dp : Inode} (run : Reaches dirStep (fun _ _ => True) EmptyDir dp) :
    dp.UniqueNames ∧ (∀ name, ∃ r, dirlookup dp name = .ok r) ∧
    (∀ name inum dp', dirlink dp name inum = .ok (0, dp') → 0 < inum → inum < 2 ^ 16 →
      (∃ off, dirlookup dp' name = .ok (some (inum, off))) ∧ SameOthers dp dp' name) ∧
    (∀ name inum, (dirlink dp name inum).map Prod.fst = .ok (-1) ↔ dirlookup dp name ≠ .ok none) ∧
    (∀ name inum dp', dirlink dp name inum = .ok (-1, dp') → dp' = dp) ∧
    (∀ name inum e, dirlink dp name inum = .error e →
      e = .dirlink ∧ dp.size = MAXFILE * BSIZE ∧ ∀ k, DIRENT * k < dp.size → dp.inumAt k ≠ 0) ∧
    (∀ name inum off, dirlookup dp name = .ok (some (inum, off)) →
      ∃ dp', zeroEntry dp off = .ok dp' ∧
      dirlookup dp' name = .ok none ∧ SameOthers dp dp' name) := by
  obtain ⟨n, h⟩ := reached_dirOk run
  refine ⟨fun j k below below' => h.unique j k (h.below.mp below) (h.below.mp below'),
    fun name => ⟨_, h.lookup name⟩, fun name inum dp' linked pos small => ?_, fun name inum => ?_,
    fun name inum dp' refused => ?_, fun name inum e failed => ?_, fun name inum off found => ?_⟩
  · have ends := h.link name inum
    rw [linked] at ends
    cases ends with
    | added absent place empty set kept =>
      rename_i k
      have inum' := set.inum k
      have name' := set.name k
      rw [if_pos rfl, Nat.mod_eq_of_lt small] at inum'
      rw [if_pos rfl] at name'
      have there := kept.find_eq.mpr ⟨by omega, by omega, name'⟩
      refine ⟨⟨DIRENT * k, by simp [kept.lookup, there, inum']⟩, ?_⟩
      exact set.sameOthers h kept rfl place (fun _ => rfl) fun below live =>
        absurd (empty below) live
  · have ends := h.link name inum
    generalize dirlink dp name inum = r at ends
    cases ends with
    | present found => simp [Except.map, h.lookup, found]
    | added absent => simp [Except.map, h.lookup, absent]
    | full absent => simp [Except.map, h.lookup, absent]
  · have ends := h.link name inum
    rw [refused] at ends
    cases ends
    rfl
  · have ends := h.link name inum
    rw [failed] at ends
    cases ends with
    | full _ live size => exact ⟨rfl, size, fun k below => live k (h.below.mp below)⟩
  · rw [h.lookup] at found
    cases at_ : dp.find n (dirname name) with
    | none => simp [at_] at found
    | some k =>
      simp only [at_, Option.map_some, Except.ok.injEq, Option.some.injEq, Prod.mk.injEq] at found
      obtain ⟨below, live, same⟩ := h.find_eq.mp at_
      obtain ⟨dp', zeroed, set, kept⟩ := h.zero below
      refine ⟨dp', found.2 ▸ zeroed, ?_, ?_⟩
      · have gone : dp'.find n (dirname name) = none := by
          rw [Option.eq_none_iff_forall_ne_some]
          intro j there
          obtain ⟨below', live', same'⟩ := kept.find_eq.mp there
          rw [set.inum] at live'
          rw [set.name] at same'
          by_cases here : j = k
          · simp [here] at live'
          · rw [if_neg here] at live' same'
            exact here (h.unique j k below' below live' live (same'.trans same.symm))
        simp [kept.lookup, gone]
      · exact set.sameOthers h kept (Nat.max_eq_left below).symm (Nat.le_of_lt below)
          (fun no => absurd rfl no) fun _ _ => same

def shortName (c : UInt8) : Bytes := fun i => if i = 0 then c else 0

/-- A name of DIRSIZ bytes, and what comes after them. -/
def fourteen (rest : UInt8) : Bytes := fun i => if i < DIRSIZ then 97 else rest

/-- A name that was removed, one of DIRSIZ bytes, and a third that gets the entry of the
first. -/
theorem new_directory_is_a_map : ∃ dp dp' : Inode, dp.size = 2 * DIRENT ∧ dp'.size = 2 * DIRENT ∧
    dirlink dp (shortName 98) 7 = .ok (0, dp') ∧
    (∃ off, dirlookup dp' (shortName 98) = .ok (some (7, off))) ∧
    dirlookup dp' (fourteen 98) = .ok (some (6, DIRENT)) ∧
    (dirlink dp' (fourteen 98) 8).map Prod.fst = .ok (-1) := by
  have start : Reaches dirStep (fun _ _ => True) EmptyDir { type := .dir } := .start ⟨rfl, rfl⟩
  obtain ⟨dp, run, last⟩ := start.exists_of_follow
    [.link (shortName 97) 5, .link (fourteen 0) 6, .unlink (shortName 97)]
    (fun dp => decide (dp.size = 2 * DIRENT ∧ dirlookup dp (fourteen 98) = .ok (some (6, DIRENT)) ∧
      (dirlink dp (shortName 98) 7).map (fun x => (x.1, x.2.size)) = .ok (0, 2 * DIRENT)))
    (by decide +kernel)
  obtain ⟨size, found, linked⟩ := of_decide_eq_true last
  cases done : dirlink dp (shortName 98) 7 with
  | error e => simp [done, Except.map] at linked
  | ok x =>
    obtain ⟨r, dp'⟩ := x
    obtain ⟨rfl, size'⟩ : r = 0 ∧ dp'.size = 2 * DIRENT := by simpa [done, Except.map] using linked
    obtain ⟨there, others⟩ := (directories_are_maps run).2.2.1 _ 7 dp' done (by decide) (by decide)
    have kept := (others (fourteen 98) (by decide)).trans found
    have after : Reaches dirStep (fun _ _ => True) EmptyDir dp' :=
      run.step (a := .link (shortName 98) 7) trivial (by rw [dirStep, done]; rfl)
    exact ⟨dp, dp', size, size', done, there, kept,
      ((directories_are_maps after).2.2.2.1 _ 8).mpr (by rw [kept]; nofun)⟩

end MmapXv6
