import Mathlib.Data.UInt
import MmapXv6.Lib.Bytes

/-! mpinit of mp.c: it looks for the configuration table of the firmware and reads its
entries. An entry of an unknown type does not move the cursor, and the entries of processors
are not counted against NCPU. A byte of memory is given by its physical address. -/
namespace MmapXv6.Mp

open Lib (Bytes word half)

def NCPU : Nat := 8
def MPPROC : UInt8 := 0
def MPBUS : UInt8 := 1
def MPIOAPIC : UInt8 := 2
def MPIOINTR : UInt8 := 3
def MPLINTR : UInt8 := 4

/-- sizeof of struct mpconf and struct mpproc; struct mpioapic has 8 bytes as the other entries -/
def mpconfSize : Nat := 44
def mpprocSize : Nat := 20

def sum (b : Bytes) (addr len : Nat) : UInt8 := ((List.range len).map fun i => b (addr + i)).sum

def signed (b : Bytes) (p : Nat) (signature : List UInt8) : Bool :=
    (List.range 4).map (b <| p + ·) = signature

def mpsearch1 (b : Bytes) (a len : Nat) : Option Nat :=
  (List.range' a (len / 16) 16).find? fun p =>
    signed b p [0x5f, 0x4d, 0x50, 0x5f] && sum b p 16 == 0

def mpsearch (b : Bytes) : Option Nat :=
  let p := half b 0x40e * 16
  if p ≠ 0 then (mpsearch1 b p 1024).or (mpsearch1 b 0xf0000 0x10000)
  else (mpsearch1 b ((half b 0x413 * 1024 + (2 ^ 32 - 1024)) % 2 ^ 32) 1024).or
    (mpsearch1 b 0xf0000 0x10000)

def mpconfig (b : Bytes) : Option Nat :=
  match mpsearch b with
  | none => none
  | some mp =>
    let conf := word b (mp + 4)
    if conf = 0 then none
    else if ¬ signed b conf [0x50, 0x43, 0x4d, 0x50] then none
    else if b (conf + 6) ≠ 1 ∧ b (conf + 6) ≠ 4 then none
    else if sum b conf (half b (conf + 4)) ≠ 0 then none
    else some conf

/-- The variables that mpinit sets, bcpu as an index. The indices of the stores to cpus[] are of
the proofs alone. -/
structure Vars where
  ismp : Bool := false
  ncpu : Nat := 0
  bcpu : Nat := 0
  lapic : Nat := 0
  ioapicid : UInt8 := 0
  stores : List Nat := []

def entry (b : Bytes) (s : Vars) (p : Nat) : Vars × Nat :=
  if b p = MPPROC then
    ({ s with
      ismp := s.ismp && s.ncpu == (b (p + 1)).toNat
      bcpu := if b (p + 3) &&& 2 ≠ 0 then s.ncpu else s.bcpu
      stores := s.stores ++ [s.ncpu]
      ncpu := s.ncpu + 1 }, p + mpprocSize)
  else if b p = MPIOAPIC then ({ s with ioapicid := b (p + 1) }, p + 8)
  else if b p = MPBUS ∨ b p = MPIOINTR ∨ b p = MPLINTR then (s, p + 8)
  else ({ s with ismp := false }, p)

/-- The loop over the entries before e. An error is a state in which it still goes on. -/
def entries (b : Bytes) (e : Nat) : Nat → Vars → Nat → Except Vars Vars
  | 0, s, _ => .error s
  | fuel + 1, s, p =>
    if p < e then entries b e fuel (entry b s p).1 (entry b s p).2 else .ok s

def fallback (s : Vars) : Vars :=
  if s.ismp then s else { s with ncpu := 1, lapic := 0, ioapicid := 0 }

def mpinit (b : Bytes) (fuel : Nat) : Except Vars Vars :=
  match mpconfig b with
  | none => .ok {}
  | some conf =>
    (entries b (conf + half b (conf + 4)) fuel { ismp := true, lapic := word b (conf + 36) }
      (conf + mpconfSize)).map fallback

/-! The entries of a table. -/

def size (type : UInt8) : Option Nat :=
  if type = MPPROC then some mpprocSize
  else if type = MPIOAPIC ∨ type = MPBUS ∨ type = MPIOINTR ∨ type = MPLINTR then some 8
  else none

/-- The entries from p to e, up to the first one of an unknown type. -/
def walk (b : Bytes) (e : Nat) : Nat → Nat → List Nat
  | 0, _ => []
  | n + 1, p => if p < e then p :: ((size (b p)).elim [] fun k => walk b e n (p + k)) else []

def table (b : Bytes) : List Nat :=
  (mpconfig b).elim [] fun conf => walk b (conf + half b (conf + 4)) (half b (conf + 4))
    (conf + mpconfSize)

def processors (b : Bytes) (ps : List Nat) : Nat := ps.countP (b · = MPPROC)

section Loop
variable {b : Bytes} {e n p fuel : Nat} {s t : Vars}

theorem entry_known {k : Nat} (known : size (b p) = some k) : 0 < k ∧ (entry b s p).2 = p + k := by
  unfold size at known
  unfold entry
  split at known
  · rename_i proc
    cases known
    exact ⟨by decide, by rw [if_pos proc]⟩
  · rename_i other
    split at known
    · rename_i listed
      cases known
      refine ⟨by decide, ?_⟩
      rw [if_neg other]
      rcases listed with ioapic | listed
      · rw [if_pos ioapic]
      · split
        · rfl
        · rfl
    · cases known

theorem entry_unknown (unknown : size (b p) = none) : (entry b s p).2 = p := by
  unfold size at unknown
  unfold entry
  split at unknown
  · cases unknown
  · rename_i other
    split at unknown
    · cases unknown
    · rename_i none
      rw [if_neg other, if_neg (fun ioapic => none (.inl ioapic)),
        if_neg fun listed => none (.inr listed)]

theorem walk_known {k : Nat} (less : p < e) (known : size (b p) = some k) :
    walk b e (n + 1) p = p :: walk b e n (p + k) := by
  rw [walk, if_pos less, known]
  rfl

theorem walk_unknown (less : p < e) (unknown : size (b p) = none) : walk b e (n + 1) p = [p] := by
  rw [walk, if_pos less, unknown]
  rfl

theorem walk_end (ends : ¬ p < e) : walk b e n p = [] := by
  cases n with
  | zero => rfl
  | succ n => exact if_neg ends

def reads (b : Bytes) (s : Vars) (ps : List Nat) : Vars := ps.foldl (fun s p => (entry b s p).1) s

theorem entries_of_ok (room : e ≤ p + n) (done : entries b e fuel s p = .ok t) :
    (∀ q ∈ walk b e n p, (size (b q)).isSome) ∧ t = reads b s (walk b e n p) := by
  induction fuel generalizing n s p with
  | zero => cases done
  | succ fuel ih =>
    rw [entries] at done
    split at done
    · rename_i less
      obtain ⟨n, rfl⟩ := Nat.exists_eq_succ_of_ne_zero (show n ≠ 0 by omega)
      cases type : size (b p) with
      | some k =>
        obtain ⟨pos, next⟩ := entry_known (s := s) type
        rw [next] at done
        obtain ⟨known, same⟩ := ih (n := n) (by omega) done
        rw [walk_known less type]
        exact ⟨List.forall_mem_cons.mpr ⟨by simp [type], known⟩, same⟩
      | none =>
        rw [entry_unknown type] at done
        have known := (ih room done).1 p (by simp [walk_unknown less type])
        rw [type] at known
        cases known
    · rename_i ends
      cases done
      rw [walk_end ends]
      exact ⟨fun q mem => (nomatch mem), rfl⟩

theorem entries_reach (b : Bytes) (e n p : Nat) (s : Vars) :
    entries b e (walk b e n p).length s p = .error (reads b s (walk b e n p)) := by
  induction n generalizing s p with
  | zero => rfl
  | succ n ih =>
    by_cases less : p < e
    · cases type : size (b p) with
      | some k =>
        rw [walk_known less type, List.length_cons, entries, if_pos less, (entry_known type).2]
        exact ih _ _
      | none =>
        rw [walk_unknown less type, List.length_singleton, entries, if_pos less]
        rfl
    · rw [walk_end less]
      rfl

theorem entries_end (room : e ≤ p + n) (known : ∀ q ∈ walk b e n p, (size (b q)).isSome) :
    entries b e ((walk b e n p).length + 1) s p = .ok (reads b s (walk b e n p)) := by
  induction n generalizing s p with
  | zero => exact if_neg (by omega)
  | succ n ih =>
    by_cases less : p < e
    · cases type : size (b p) with
      | some k =>
        have pos := (entry_known (s := s) type).1
        rw [walk_known less type] at known ⊢
        rw [List.length_cons, entries, if_pos less, (entry_known type).2]
        exact ih (by omega) fun q mem => known q (List.mem_cons_of_mem p mem)
      | none =>
        have first := known p (by simp [walk_unknown less type])
        rw [type] at first
        cases first
    · rw [walk_end less]
      exact if_neg less

theorem entry_stores (counted : s.stores = List.range s.ncpu) :
    (entry b s p).1.stores = List.range (entry b s p).1.ncpu ∧
      (entry b s p).1.ncpu = s.ncpu + processors b [p] := by
  unfold entry processors
  split
  · rename_i proc
    simp [proc, counted, List.range_succ]
  · rename_i other
    split
    · simp [other, counted]
    · split <;> simp [other, counted]

theorem reads_stores (ps : List Nat) (counted : s.stores = List.range s.ncpu) :
    (reads b s ps).stores = List.range (reads b s ps).ncpu ∧
      (reads b s ps).ncpu = s.ncpu + processors b ps := by
  induction ps generalizing s with
  | nil => exact ⟨counted, rfl⟩
  | cons p ps ih =>
    obtain ⟨stores, count⟩ := entry_stores (b := b) (p := p) counted
    obtain ⟨last, total⟩ := ih stores
    refine ⟨last, total.trans ?_⟩
    rw [count, Nat.add_assoc]
    simp only [processors, ← List.countP_append, List.singleton_append]

theorem entries_stores (room : e ≤ p + n) (counted : s.stores = List.range s.ncpu)
    (still : entries b e fuel s p = .error t) :
    t.stores = List.range t.ncpu ∧ t.ncpu ≤ s.ncpu + processors b (walk b e n p) := by
  induction fuel generalizing n s p with
  | zero =>
    cases still
    exact ⟨counted, Nat.le_add_right _ _⟩
  | succ fuel ih =>
    rw [entries] at still
    split at still
    · rename_i less
      obtain ⟨n, rfl⟩ := Nat.exists_eq_succ_of_ne_zero (show n ≠ 0 by omega)
      obtain ⟨stores, count⟩ := entry_stores (b := b) (p := p) counted
      cases type : size (b p) with
      | some k =>
        obtain ⟨pos, next⟩ := entry_known (s := s) type
        rw [next] at still
        obtain ⟨last, most⟩ := ih (n := n) (by omega) stores still
        refine ⟨last, ?_⟩
        rw [walk_known less type]
        simp only [processors, List.countP_cons, List.countP_nil] at count most ⊢
        omega
      | none =>
        have other : b p ≠ MPPROC := fun same => by simp [size, same] at type
        rw [entry_unknown type] at still
        obtain ⟨last, most⟩ := ih room stores still
        refine ⟨last, ?_⟩
        simpa [processors, other, count] using most
    · cases still

end Loop

theorem map_ok {x : Except Vars Vars} {f : Vars → Vars} {s : Vars} :
    x.map f = .ok s ↔ ∃ t, x = .ok t ∧ f t = s := by
  cases x with
  | error t => simp [Except.map]
  | ok t => simp [Except.map]

/-- mpinit ends, and falls back after an entry of an unknown type, exactly if the table has no such
entry. -/
theorem mpinit_ends_iff (b : Bytes) :
    (∃ fuel s, mpinit b fuel = .ok s ∧
      ((∃ q ∈ table b, size (b q) = none) → s.ismp = false ∧ s.ncpu = 1)) ↔
      ∀ q ∈ table b, (size (b q)).isSome := by
  unfold mpinit table
  cases mpconfig b with
  | none =>
    exact iff_of_true ⟨0, {}, rfl, fun ⟨q, mem, _⟩ => (nomatch mem)⟩ fun q mem => (nomatch mem)
  | some conf =>
    have room : conf + half b (conf + 4) ≤ conf + mpconfSize + half b (conf + 4) := by omega
    constructor
    · rintro ⟨fuel, s, done, -⟩
      obtain ⟨t, loop, -⟩ := map_ok.mp done
      exact (entries_of_ok room loop).1
    · intro known
      refine ⟨_, _, map_ok.mpr ⟨_, entries_end room known, rfl⟩, fun ⟨q, mem, unknown⟩ => ?_⟩
      have found := known q mem
      rw [unknown] at found
      cases found

def memoryOf (bytes : List (Nat × List UInt8)) : Bytes := fun a =>
  (bytes.find? fun r => r.1 ≤ a ∧ a < r.1 + r.2.length).elim 0 fun r => r.2.getD (a - r.1) 0

/-- The segment of the BIOS data area, the floating pointer, and a table with these entries. -/
def firmware (length checksum : UInt8) (entries : List UInt8) : Bytes := memoryOf [
  (0x40e, [0, 0x10]),
  (0x10000, [0x5f, 0x4d, 0x50, 0x5f, 0, 0, 2, 0, 1, 4, 0x9e, 0]),
  (0x20000, [0x50, 0x43, 0x4d, 0x50, length, 0, 4, checksum] ++ List.replicate 36 0 ++ entries)]

/-- A table with one entry of type 255. -/
theorem mpinit_hangs : mpconfig (firmware 45 0xa0 [0xff]) = some 0x20000 ∧
    ¬ ∃ fuel s, mpinit (firmware 45 0xa0 [0xff]) fuel = .ok s := by
  have found : mpconfig (firmware 45 0xa0 [0xff]) = some 0x20000 := by decide +kernel
  refine ⟨found, fun ⟨fuel, s, done⟩ => ?_⟩
  obtain ⟨t, loop, -⟩ := map_ok.mp done
  have known := (entries_of_ok (n := 1) (by decide +kernel) loop).1 0x2002c (by decide +kernel)
  exact absurd known (by decide +kernel)

def now : Except Vars Vars → Vars
  | .ok s => s
  | .error s => s

section Counts
variable {b : Bytes} {e n p fuel : Nat} {s t : Vars}

theorem now_fallback (x : Except Vars Vars) : (now (x.map fallback)).stores = (now x).stores := by
  cases x with
  | error s => rfl
  | ok s =>
    simp only [Except.map, now, fallback]
    split <;> rfl

theorem stores_reached (more : ¬ processors b (walk b e n p) ≤ NCPU) (none : s.stores = [])
    (zero : s.ncpu = 0) :
    NCPU ∈ (now ((entries b e (walk b e n p).length s p).map fallback)).stores := by
  obtain ⟨stored, total⟩ := reads_stores (b := b) (walk b e n p)
      (show s.stores = List.range s.ncpu by simp [none, zero])
  rw [now_fallback, entries_reach, now, stored, List.mem_range]
  omega

theorem stores_below (room : e ≤ p + n) (none : s.stores = []) (zero : s.ncpu = 0) {i : Nat}
    (mem : i ∈ (now ((entries b e fuel s p).map fallback)).stores) :
      i < processors b (walk b e n p) := by
  have counted : s.stores = List.range s.ncpu := by simp [none, zero]
  rw [now_fallback] at mem
  cases loop : entries b e fuel s p with
  | error t =>
    obtain ⟨stored, most⟩ := entries_stores room counted loop
    rw [loop, now, stored, List.mem_range] at mem
    omega
  | ok t =>
    obtain ⟨stored, total⟩ := reads_stores (b := b) (walk b e n p) counted
    rw [loop, (entries_of_ok room loop).2, now, stored, List.mem_range] at mem
    omega

theorem returned_count (room : e ≤ p + n) (none : s.stores = []) (zero : s.ncpu = 0)
    (most : processors b (walk b e n p) ≤ NCPU) (done : (entries b e fuel s p).map fallback = .ok t)
    (some : 0 < processors b (walk b e n p) ∨ t.ismp = false) : 1 ≤ t.ncpu ∧ t.ncpu ≤ NCPU := by
  obtain ⟨u, loop, rfl⟩ := map_ok.mp done
  obtain ⟨-, total⟩ :=
    reads_stores (b := b) (walk b e n p) (show s.stores = List.range s.ncpu by simp [none, zero])
  obtain rfl := (entries_of_ok room loop).2
  unfold fallback at some ⊢
  split
  · rename_i mp
    rw [if_pos mp, mp] at some
    have := some.resolve_right (by simp)
    omega
  · exact ⟨Nat.le_refl 1, (by decide : 1 ≤ NCPU)⟩

end Counts

/-- Every store is inside cpus[], and ncpu is from 1 to NCPU on return for a table that has a
processor or is rejected, exactly if a table is found and has at most NCPU processors. -/
theorem mpinit_inside_iff (b : Bytes) :
    ((∀ fuel, ∀ i ∈ (now (mpinit b fuel)).stores, i < NCPU) ∧
      ∀ fuel s, mpinit b fuel = .ok s →
      (0 < processors b (table b) ∨ mpconfig b = none ∨ s.ismp = false) →
        1 ≤ s.ncpu ∧ s.ncpu ≤ NCPU) ↔
    (mpconfig b).isSome ∧ processors b (table b) ≤ NCPU := by
  cases found : mpconfig b with
  | none =>
    refine iff_of_false (fun both => ?_) fun some => Bool.false_ne_true some.1
    have start : mpinit b 0 = .ok {} := by rw [mpinit, found]
    exact absurd (both.2 0 {} start (.inr (.inl rfl))).1 (by decide)
  | some conf =>
    simp only [mpinit, table, found, Option.elim_some, Option.isSome_some, true_and,
      reduceCtorEq, false_or]
    have room : conf + half b (conf + 4) ≤ conf + mpconfSize + half b (conf + 4) := by omega
    constructor
    · rintro ⟨inside, -⟩
      by_contra more
      exact absurd (inside _ NCPU (stores_reached more rfl rfl)) (Nat.lt_irrefl NCPU)
    · intro most
      exact ⟨fun fuel i mem => Nat.lt_of_lt_of_le (stores_below room rfl rfl mem) most,
        fun fuel s done some =>
        returned_count room rfl rfl most done some⟩

/-- A table with nine processors. -/
theorem mpinit_stores_beyond : NCPU ∈ (now (mpinit (firmware 224 0xc8
    ((List.range 9).flatMap fun i => [0, UInt8.ofNat i] ++ List.replicate 18 0)) 9)).stores := by
  decide +kernel

end MmapXv6.Mp
