import MmapXv6.Vm.Exec
import MmapXv6.Vm.Dealloc

/-! copyout cuts its range at the page boundaries and copies piece by piece, up to the
first page that is not a present user page. uva2ka looks at the entry of that page without
asking whether walkpgdir has found one, so where its page table is missing there is no
answer. A page directory may map one physical byte at two user addresses; then the copy
changes both. -/
namespace MmapXv6

open Lib (bind_ok ok_bind)
open Function

def PgDir.userPa (d : PgDir) (v : Nat) : Option Nat := ((d.entry v).filter Pte.user).map Pte.pa

theorem uva2ka_eq (d : PgDir) (v : Nat) :
    uva2ka d (v * PGSIZE) = if (d.tab (v / NPTENTRIES)).isSome then .ok (d.userPa v)
      else .error .nullPte := by
  have page : v * PGSIZE / PGSIZE = v := Nat.mul_div_cancel v (by decide)
  unfold uva2ka PDX PgDir.userPa
  rw [page]
  cases table : d.tab (v / NPTENTRIES) with
  | none => rfl
  | some pgtab =>
    rw [d.entry_of_table (by rw [table]; rfl)]
    cases d.pte v with
    | none => rfl
    | some e => cases user : e.user <;> simp [user]

structure CopiedTo (u u' : Uvm) (p : Lib.Bytes) (va done e : Nat) : Prop where
  pgdir : u'.pgdir = u.pgdir
  freelist : u'.kmem.freelist = u.kmem.freelist
  good : ∀ a, va ≤ a → a < e → (u.pgdir.userPa (a / PGSIZE)).isSome
  written : ∀ a pa, va ≤ a → a < e → u.pgdir.userPa (a / PGSIZE) = some pa →
    ∃ b, va ≤ b ∧ b < e ∧ u.pgdir.userPa (b / PGSIZE) = some pa ∧ b % PGSIZE = a % PGSIZE ∧
      u'.kmem.mem pa (a % PGSIZE) = p (done + (b - va))
  other : ∀ pa j, (∀ a, va ≤ a → a < e → u.pgdir.userPa (a / PGSIZE) = some pa → a % PGSIZE ≠ j) →
    u'.kmem.mem pa j = u.kmem.mem pa j

section Copy
variable {u u' w : Uvm} {p : Lib.Bytes} {va done mid e : Nat}

theorem CopiedTo.refl (u : Uvm) (p : Lib.Bytes) (va done : Nat) : CopiedTo u u p va done va where
  pgdir := rfl
  freelist := rfl
  good := fun a low high => by omega
  written := fun a pa low high => by omega
  other := fun _ _ _ => rfl

theorem CopiedTo.trans (h : CopiedTo u w p va done mid)
    (h' : CopiedTo w u' p mid (done + (mid - va)) e)
    (le : va ≤ mid) (le' : mid ≤ e) : CopiedTo u u' p va done e := by
  have same := h.pgdir
  constructor
  · rw [h'.pgdir, same]
  · rw [h'.freelist, h.freelist]
  · intro a low high
    by_cases first : a < mid
    · exact h.good a low first
    · rw [← same]
      exact h'.good a (by omega) high
  · intro a pa low high there
    -- the later piece decides, if it has an address of this byte
    by_cases again : ∃ b, mid ≤ b ∧ b < e ∧ u.pgdir.userPa (b / PGSIZE) = some pa ∧
      b % PGSIZE = a % PGSIZE
    · obtain ⟨b, from_, to_, page, index⟩ := again
      obtain ⟨c, from', to', page', index', value⟩ :=
        h'.written b pa from_ to_ (by rw [same]; exact page)
      rw [same] at page'
      rw [index] at index' value
      refine ⟨c, by omega, to', page', index', ?_⟩
      rw [value]
      congr 1
      omega
    · have first : a < mid := by
        by_contra later
        exact again ⟨a, by omega, high, there, rfl⟩
      obtain ⟨b, from_, to_, page, index, value⟩ := h.written a pa low first there
      refine ⟨b, from_, by omega, page, index, ?_⟩
      rw [h'.other pa _ fun c from' to' page' index' => again
        ⟨c, from', to', by rw [← same]; exact page', index'⟩,
        value]
  · intro pa j none
    rw [h'.other pa j fun a low high page => none a (by omega) high (by rw [← same]; exact page),
      h.other pa j fun a low high page => none a low (by omega) page]

theorem CopiedTo.piece {pa n : Nat} (page : u.pgdir.userPa (va / PGSIZE) = some pa)
    (inside : va % PGSIZE + n ≤ PGSIZE) :
    CopiedTo u { u with
        kmem := { u.kmem with
          mem := update u.kmem.mem pa fun j =>
            if va % PGSIZE ≤ j ∧ j < va % PGSIZE + n then p (done + (j - va % PGSIZE))
            else u.kmem.mem pa j } }
      p va done (va + n) := by
  have index : ∀ a, va ≤ a → a < va + n → a / PGSIZE = va / PGSIZE ∧
      a % PGSIZE = va % PGSIZE + (a - va) := by
    intro a low high
    simp only [PGSIZE] at inside ⊢
    omega
  constructor
  · rfl
  · rfl
  · intro a low high
    rw [(index a low high).1, page]
    rfl
  · intro a pa' low high there
    rw [(index a low high).1, page] at there
    cases there
    refine ⟨a, low, high, by rw [(index a low high).1, page], rfl, ?_⟩
    dsimp only
    rw [update_self, (index a low high).2, if_pos (by omega), Nat.add_sub_cancel_left]
  · intro pa' j none
    dsimp only
    by_cases here : pa' = pa
    · subst here
      rw [update_self, if_neg]
      rintro ⟨from_, to_⟩
      have low : va ≤ va + (j - va % PGSIZE) := Nat.le_add_right _ _
      have high : va + (j - va % PGSIZE) < va + n := by omega
      obtain ⟨same, at_⟩ := index _ low high
      exact none _ low high (by rw [same, page]) (by omega)
    · rw [update_of_ne here]

/-- Where the copy of len bytes to va comes to e: the whole range, or the first address
whose page is not a present user page. -/
inductive CopyoutEnds (d : PgDir) (va len e : Nat) (u' : Uvm) :
    Except Panic (Int × Uvm) → Prop where
  | whole : e = va + len → CopyoutEnds d va len e u' (.ok (0, u'))
  | absent : e < va + len → (e = va ∨ e % PGSIZE = 0) → d.userPa (e / PGSIZE) = none →
      (d.tab (e / PGSIZE / NPTENTRIES)).isSome → CopyoutEnds d va len e u' (.ok (-1, u'))
  | null : e < va + len → (e = va ∨ e % PGSIZE = 0) → d.userPa (e / PGSIZE) = none →
      d.tab (e / PGSIZE / NPTENTRIES) = none → CopyoutEnds d va len e u' (.error .nullPte)

theorem CopyoutEnds.before {d : PgDir} {len n1 : Nat} {r : Except Panic (Int × Uvm)}
    (ends : CopyoutEnds d (va + n1) (len - n1) e u' r) (le : n1 ≤ len)
      (boundary : (va + n1) % PGSIZE = 0) :
    CopyoutEnds d va len e u' r := by
  cases ends with
  | whole eq => exact .whole (by omega)
  | absent less start gone there =>
    refine .absent (by omega) (.inr ?_) gone there
    rcases start with rfl | aligned
    · exact boundary
    · exact aligned
  | null less start gone none =>
    refine .null (by omega) (.inr ?_) gone none
    rcases start with rfl | aligned
    · exact boundary
    · exact aligned

theorem copyoutLoop_copies {n len : Nat} (fuel : endPage (va % PGSIZE + len) < n)
    (word : va + len ≤ 2 ^ 32) :
    ∃ e u', va ≤ e ∧ e ≤ va + len ∧ CopiedTo u u' p va done e ∧
      CopyoutEnds u.pgdir va len e u' (copyoutLoop p n u va done len) := by
  induction n generalizing u va done len with
  | zero => omega
  | succ n ih =>
    unfold copyoutLoop
    by_cases zero : len = 0
    · rw [if_pos zero]
      exact ⟨va, u, Nat.le_refl _, by omega, .refl u p va done, .whole (by omega)⟩
    · rw [if_neg zero, PGROUNDDOWN, uva2ka_eq]
      have stops : ∀ {r}, (va = va + len → False) → CopyoutEnds u.pgdir va len va u r →
          ∃ e u', va ≤ e ∧ e ≤ va + len ∧ CopiedTo u u' p va done e ∧
            CopyoutEnds u.pgdir va len e u' r :=
        fun _ ends => ⟨va, u, Nat.le_refl _, Nat.le_add_right _ _, .refl u p va done, ends⟩
      cases table : u.pgdir.tab (va / PGSIZE / NPTENTRIES) with
      | none =>
        have gone : u.pgdir.userPa (va / PGSIZE) = none := by
          rw [PgDir.userPa, u.pgdir.entry_of_absent table]
          rfl
        exact stops (by omega) (.null (by omega) (.inl rfl) gone table)
      | some pgtab =>
        rw [Option.isSome_some, if_pos rfl, ok_bind]
        cases page : u.pgdir.userPa (va / PGSIZE) with
        | none => exact stops (by omega) (.absent (by omega) (.inl rfl) page (by rw [table]; rfl))
        | some pa =>
          dsimp only
          obtain ⟨n1, piece⟩ : ∃ n1, n1 = if len < PGSIZE - va % PGSIZE then len
              else PGSIZE - va % PGSIZE :=
            ⟨_, rfl⟩
          rw [← piece]
          have inside : va % PGSIZE + n1 ≤ PGSIZE ∧ n1 ≤ len := by
            simp only [PGSIZE] at piece ⊢
            split at piece <;> omega
          have first : CopiedTo u _ p va done (va + n1) := .piece page inside.1
          by_cases last : n1 = len
          · have more : 0 < n := by
              unfold endPage at fuel
              simp only [PGSIZE] at fuel
              omega
            obtain ⟨n, rfl⟩ : ∃ k, n = k + 1 := ⟨n - 1, by omega⟩
            subst last
            rw [Nat.sub_self, copyoutLoop, if_pos rfl]
            exact ⟨va + n1, _, Nat.le_add_right _ _, Nat.le_refl _, first, .whole rfl⟩
          · have boundary : (va + n1) % PGSIZE = 0 ∧
                (va / PGSIZE * PGSIZE + PGSIZE) % 2 ^ 32 = va + n1 := by
              simp only [PGSIZE] at piece ⊢
              split at piece <;> omega
            rw [boundary.2]
            have less : endPage ((va + n1) % PGSIZE + (len - n1)) < n := by
              unfold endPage at fuel ⊢
              simp only [PGSIZE] at piece fuel boundary ⊢
              split at piece <;> omega
            obtain ⟨e, u', from_, to_, rest, ends⟩ := @ih { u with kmem := { u.kmem with
              mem := update u.kmem.mem pa fun j => if va % PGSIZE ≤ j ∧ j < va % PGSIZE + n1 then
                p (done + (j - va % PGSIZE)) else u.kmem.mem pa j } } (va + n1) (done + n1)
                  (len - n1) less
              (by omega)
            refine ⟨e, u', by omega, by omega, first.trans ?_ (by omega) from_, ?_⟩
            · rw [Nat.add_sub_cancel_left]
              exact rest
            · exact ends.before inside.2 boundary.1

end Copy

def Uvm.userByte (u : Uvm) (a : Nat) : Option UInt8 :=
  (u.pgdir.userPa (a / PGSIZE)).map fun pa => u.kmem.mem pa (a % PGSIZE)

def AllUser (d : PgDir) (va len : Nat) : Prop :=
  ∀ a, va ≤ a → a < va + len → (d.userPa (a / PGSIZE)).isSome

/-- The address a is in the range, and before any page that is not a present user page. -/
def InPrefix (d : PgDir) (va len a : Nat) : Prop :=
  va ≤ a ∧ a < va + len ∧ ∀ c, va ≤ c → c ≤ a → (d.userPa (c / PGSIZE)).isSome

def SameByte (d : PgDir) (a b : Nat) : Prop :=
  ∃ pa, d.userPa (a / PGSIZE) = some pa ∧ d.userPa (b / PGSIZE) = some pa ∧ a % PGSIZE = b % PGSIZE

structure CopyoutChecked (u : Uvm) (va : Nat) (p : List UInt8) (r : Int) (u' : Uvm) : Prop where
  pgdir : u'.pgdir = u.pgdir
  result : r = 0 ∨ r = -1
  zero : r = 0 ↔ AllUser u.pgdir va p.length
  copied : r = 0 → ∀ j, j < p.length → u'.userByte (va + j) = p[j]?
  others : r = 0 → ∀ a, a < va ∨ va + p.length ≤ a → u'.userByte a = u.userByte a
  stopped : r = -1 → ∃ e, e % PGSIZE = 0 ∧ (∀ a, va ≤ a → a < e → InPrefix u.pgdir va p.length a) ∧
    ∀ a, u'.userByte a ≠ u.userByte a → va ≤ a ∧ a < e

section Checked
variable {u u' : Uvm} {va len : Nat} {p : List UInt8}

theorem copyout_ends (u : Uvm) (p : List UInt8) (word : va + p.length ≤ 2 ^ 32) :
    ∃ e u', va ≤ e ∧ e ≤ va + p.length ∧ CopiedTo u u' (fun j => p.getD j 0) va 0 e ∧
      CopyoutEnds u.pgdir va p.length e u' (copyout u va p) := by
  apply copyoutLoop_copies _ word
  unfold endPage
  simp only [NPAGES, NPDENTRIES, NPTENTRIES, PGSIZE]
  omega

theorem SameByte.userByte {a b : Nat} (same : SameByte u.pgdir a b) (pgdir : u'.pgdir = u.pgdir) :
    u'.userByte a = u'.userByte b := by
  obtain ⟨pa, first, second, index⟩ := same
  unfold Uvm.userByte
  rw [pgdir, first, second, index]

theorem copyout_all (all : AllUser u.pgdir va p.length) (word : va + p.length ≤ 2 ^ 32) :
    ∃ u', copyout u va p = .ok (0, u') ∧
      CopiedTo u u' (fun j => p.getD j 0) va 0 (va + p.length) := by
  obtain ⟨e, u', low, high, copied, ends⟩ := copyout_ends u p word
  have good : e < va + p.length → u.pgdir.userPa (e / PGSIZE) ≠ none := by
    intro less gone
    have there := all e low less
    rw [gone] at there
    cases there
  generalize result : copyout u va p = x at ends
  cases ends with
  | whole eq =>
    subst eq
    exact ⟨u', rfl, copied⟩
  | absent less _ gone _ => exact absurd gone (good less)
  | null less _ gone _ => exact absurd gone (good less)

theorem CopiedTo.changed {p : Lib.Bytes} {done e a : Nat} (h : CopiedTo u u' p va done e)
    (differs : u'.userByte a ≠ u.userByte a) : ∃ b, va ≤ b ∧ b < e ∧ SameByte u.pgdir b a := by
  by_contra none
  push Not at none
  apply differs
  unfold Uvm.userByte
  rw [h.pgdir]
  cases page : u.pgdir.userPa (a / PGSIZE) with
  | none => rfl
  | some pa =>
    rw [Option.map_some, Option.map_some, h.other pa (a % PGSIZE)]
    intro b low high there index
    exact none b low high ⟨pa, there, page, index⟩

/-- The byte at an address that is copied to comes from the buffer, from the place of that
address or of another one of the same byte. -/
theorem CopiedTo.value {p : Lib.Bytes} {done e a : Nat} (h : CopiedTo u u' p va done e)
    (low : va ≤ a) (high : a < e) : ∃ b, va ≤ b ∧ b < e ∧ SameByte u.pgdir b a ∧
      u'.userByte a = some (p (done + (b - va))) := by
  obtain ⟨pa, page⟩ := Option.isSome_iff_exists.mp (h.good a low high)
  obtain ⟨b, from_, to_, there, index, value⟩ := h.written a pa low high page
  refine ⟨b, from_, to_, ⟨pa, there, page, index⟩, ?_⟩
  unfold Uvm.userByte
  rw [h.pgdir, page, Option.map_some, value]

theorem SameByte.some {a b : Nat} (same : SameByte u.pgdir a b) : ∃ x, u.userByte b = some x := by
  obtain ⟨pa, -, page, -⟩ := same
  unfold Uvm.userByte
  rw [page]
  exact ⟨_, rfl⟩

/-- On the whole range no byte that is copied to can have a second user address: the buffer
can ask for two values of it, or for another value than it must keep. -/
theorem CopyoutChecked.whole
    (checked : ∀ p : List UInt8, p.length = len →
      ∃ r u', copyout u va p = .ok (r, u') ∧ CopyoutChecked u va p r u')
    (all : AllUser u.pgdir va len) {a b : Nat} (low : va ≤ a) (high : a < va + len) (ne : a ≠ b) :
    ¬ SameByte u.pgdir a b := by
  intro same
  by_cases inside : va ≤ b ∧ b < va + len
  · obtain ⟨r, u', -, chk⟩ :=
      checked ((List.range len).map fun j => if j = a - va then 1 else 0) (by simp)
    have zero : r = 0 := chk.zero.mpr (by simpa using all)
    have at_ : ∀ c, va ≤ c → c < va + len → u'.userByte c = .some (if c = a then 1 else 0) := by
      intro c from_ to_
      have value := chk.copied zero (c - va) (by simp; omega)
      rw [Nat.add_sub_cancel' from_] at value
      rw [value, List.getElem?_map, List.getElem?_range (by omega), Option.map_some]
      congr 1
      simp only [show c - va = a - va ↔ c = a by omega]
    have both := same.userByte chk.pgdir
    rw [at_ a low high, at_ b inside.1 inside.2, if_pos rfl, if_neg (Ne.symm ne)] at both
    cases both
  · obtain ⟨x, old⟩ := same.some
    obtain ⟨r, u', -, chk⟩ := checked (List.replicate len (x + 1)) List.length_replicate
    have zero : r = 0 := chk.zero.mpr (by simpa using all)
    have new := chk.copied zero (a - va) (by rw [List.length_replicate]; omega)
    have kept := chk.others zero b (by rw [List.length_replicate]; omega)
    rw [Nat.add_sub_cancel' low, List.getElem?_replicate, if_pos (by omega),
      same.userByte chk.pgdir, kept,
      old] at new
    simp at new

/-- Where the copy stops early, a second address of a byte that is copied to changes with
it, so it is among the addresses of the prefix. -/
theorem CopyoutChecked.early (word : va + len ≤ 2 ^ 32)
    (checked : ∀ p : List UInt8, p.length = len →
      ∃ r u', copyout u va p = .ok (r, u') ∧ CopyoutChecked u va p r u')
    (some : ¬ AllUser u.pgdir va len) {a b : Nat} (reached : InPrefix u.pgdir va len a)
    (same : SameByte u.pgdir a b) : InPrefix u.pgdir va len b := by
  obtain ⟨x, old⟩ := same.some
  obtain ⟨r, u', done, chk⟩ := checked (List.replicate len (x + 1)) List.length_replicate
  obtain ⟨e, w, low, high, copied, ends⟩ :=
    copyout_ends u (List.replicate len (x + 1)) (by rw [List.length_replicate]; exact word)
  rw [done] at ends
  have failed : r = -1 := by
    refine chk.result.resolve_left fun zero => some ?_
    simpa using chk.zero.mp zero
  obtain ⟨e', -, good, changes⟩ := chk.stopped failed
  rw [List.length_replicate] at good ends high
  cases ends with
  | whole eq => exact absurd failed (by decide)
  | absent less start gone there =>
    have before : a < e := by
      by_contra later
      have page := reached.2.2 e low (by omega)
      rw [gone] at page
      cases page
    obtain ⟨c, from_, to_, -, value⟩ := copied.value reached.1 before
    have new : u'.userByte b = .some (x + 1) := by
      rw [← same.userByte copied.pgdir, value]
      have inside : c - va < len := by omega
      simp [inside]
    obtain ⟨from', to'⟩ := changes b (by rw [new, old]; simp)
    exact good b from' to'

end Checked

/-- copyout is all-checked exactly when the first page that is not a present user page has
its page table, and no byte that is copied to has a second user address; where the copy
stops early, a second address among those copied to does no harm. -/
theorem copyout_checked {va len : Nat} (word : va + len ≤ 2 ^ 32) (u : Uvm) :
    (∀ p : List UInt8, p.length = len → ∃ r u', copyout u va p = .ok (r, u') ∧
      CopyoutChecked u va p r u') ↔
      (∀ e, va ≤ e → e < va + len → (∀ a, va ≤ a → a < e → (u.pgdir.userPa (a / PGSIZE)).isSome) →
        u.pgdir.userPa (e / PGSIZE) = none → (u.pgdir.tab (e / PGSIZE / NPTENTRIES)).isSome) ∧
      ∀ a b, InPrefix u.pgdir va len a → a ≠ b → SameByte u.pgdir a b →
        InPrefix u.pgdir va len b ∧ ¬ AllUser u.pgdir va len := by
  constructor
  · intro checked
    constructor
    · intro e from_ to_ good bad
      obtain ⟨r, u', done, -⟩ := checked (List.replicate len 0) List.length_replicate
      obtain ⟨e', w, low, high, copied, ends⟩ :=
        copyout_ends u (List.replicate len 0) (by rw [List.length_replicate]; exact word)
      rw [done] at ends
      rw [List.length_replicate] at ends high
      have absurd_before : ¬ e < e' := by
        intro before
        have there := copied.good e from_ before
        rw [bad] at there
        cases there
      cases ends with
      | whole eq => omega
      | absent less start gone there =>
        have same : e' = e := by
          by_contra ne
          have earlier := good e' low (by omega)
          rw [gone] at earlier
          cases earlier
        rw [← same]
        exact there
    · intro a b reached ne same
      have some : ¬ AllUser u.pgdir va len := fun all =>
        CopyoutChecked.whole checked all reached.1 reached.2.1 ne same
      exact ⟨CopyoutChecked.early word checked some reached same, some⟩
  · rintro ⟨tables, single⟩ p rfl
    obtain ⟨e, u', low, high, copied, ends⟩ := copyout_ends u p word
    generalize result : copyout u va p = x at ends
    cases ends with
    | whole eq =>
      subst eq
      have alone : ∀ a b, va ≤ a → a < va + p.length → SameByte u.pgdir a b → a = b := by
        intro a b from_ to_ same
        by_contra ne
        exact (single a b ⟨from_, to_, fun c low' le => copied.good c low' (by omega)⟩ ne same).2
          copied.good
      refine ⟨0, u', rfl, copied.pgdir, .inl rfl, ⟨fun _ => copied.good, fun _ => rfl⟩,
        fun _ j inside => ?_,
        fun _ a out => ?_, fun failed => absurd failed (by decide)⟩
      · obtain ⟨b, from_, to_, same, value⟩ := copied.value (Nat.le_add_right va j) (by omega)
        obtain rfl := alone b (va + j) from_ to_ same
        rw [value, Nat.zero_add, Nat.add_sub_cancel_left, List.getD_eq_getElem?_getD,
          List.getElem?_eq_getElem inside]
        rfl
      · by_contra differs
        obtain ⟨b, from_, to_, same⟩ := copied.changed differs
        obtain rfl := alone b a from_ to_ same
        omega
    | absent less start gone there =>
      have bad : ¬ AllUser u.pgdir va p.length := by
        intro all
        have page := all e low less
        rw [gone] at page
        cases page
      refine ⟨-1, u', rfl, copied.pgdir, .inr rfl,
        ⟨fun zero => absurd zero (by decide), fun all => absurd all bad⟩,
        fun zero => absurd zero (by decide), fun zero => absurd zero (by decide), fun _ => ?_⟩
      have changes : ∀ a, u'.userByte a ≠ u.userByte a → va ≤ a ∧ a < e := by
        intro a differs
        obtain ⟨b, from_, to_, same⟩ := copied.changed differs
        by_cases eq : b = a
        · subst eq
          exact ⟨from_, to_⟩
        · have inside :=
            (single b a ⟨from_, by omega, fun c low' le => copied.good c low' (by omega)⟩ eq same).1
          refine ⟨inside.1, ?_⟩
          by_contra later
          have page := inside.2.2 e low (by omega)
          rw [gone] at page
          cases page
      rcases start with rfl | aligned
      · exact ⟨0, rfl, fun a _ neg => by omega,
          fun a differs => by have := changes a differs; omega⟩
      · exact ⟨e, aligned, fun a from_ to_ =>
          ⟨from_, by omega, fun c low' le => copied.good c low' (by omega)⟩, changes⟩
    | null less start gone none =>
      have there := tables e low less copied.good gone
      rw [none] at there
      cases there

def oneUserPage : Uvm where
  pgdir := {
    tab := fun i => if i = 0 then some 300 else none
    pte := fun v => if v = 0 then some (userPte 301) else none }
  kmem := {}

theorem oneUserPage_userPa {v pa : Nat} (there : oneUserPage.pgdir.userPa v = some pa) : v = 0 := by
  by_contra ne
  have none : oneUserPage.pgdir.entry v = none := by
    unfold PgDir.entry
    split
    · exact if_neg ne
    · rfl
  unfold PgDir.userPa at there
  rw [none] at there
  cases there

/-- Two bytes fit below the end of the page, and four bytes across it fail with -1. -/
theorem copyout_checked_oneUserPage :
    ∃ r u', copyout oneUserPage 4094 [1, 2, 3, 4] = .ok (r, u') ∧
      CopyoutChecked oneUserPage 4094 [1, 2, 3, 4] r u' := by
  refine (copyout_checked (by decide) oneUserPage).mpr ⟨?_, ?_⟩ [1, 2, 3, 4] rfl
  · intro e from_ to_ _ _
    have table : e / PGSIZE / NPTENTRIES = 0 := by
      simp only [PGSIZE, NPTENTRIES, List.length_cons, List.length_nil] at to_ ⊢
      omega
    rw [table]
    rfl
  · rintro a b - ne ⟨pa, first, second, index⟩
    have zero := oneUserPage_userPa first
    have zero' := oneUserPage_userPa second
    simp only [PGSIZE] at zero zero' index
    omega

/-- A range in a page table that does not exist: uva2ka reads the entry through the null
pointer that walkpgdir returns. -/
theorem copyout_null_pte :
    copyout oneUserPage (NPTENTRIES * PGSIZE) [1] = .error .nullPte ∧
    ¬ ∃ r u', copyout oneUserPage (NPTENTRIES * PGSIZE) [1] = .ok (r, u') ∧
      CopyoutChecked oneUserPage (NPTENTRIES * PGSIZE) [1] r u' := by
  have null : copyout oneUserPage (NPTENTRIES * PGSIZE) [1] = .error .nullPte := by
    unfold copyout copyoutLoop
    rw [if_neg (by decide), PGROUNDDOWN, uva2ka_eq, if_neg (by decide)]
    rfl
  refine ⟨null, ?_⟩
  rintro ⟨r, u', done, -⟩
  cases done.symm.trans null

end MmapXv6
