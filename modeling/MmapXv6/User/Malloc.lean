import MmapXv6.Lib.Word
import MmapXv6.Lib.Ring
import MmapXv6.Lib.Tiles
import Mathlib.Data.Finset.Card
import Mathlib.Data.List.Chain

/-! The allocator of umalloc.c. A pointer is an address, a Header at an address is its two
fields, and the arithmetic of pointers and of uints wraps around. What sbrk does is left to
the system: it is a function on a state of any type, and none is its (char*)-1. -/
namespace MmapXv6

open Function (update update_of_ne update_self)
open Lib (Inside Off Tiles Visits path_append visits_append tiles_join)

variable {b q : Nat × Nat} {back front : List (Nat × Nat)} {n p : Nat}

/-- sizeof(Header) -/
abbrev HEADER : Nat := 8

/-- The headers, freep and the system. The regions that sbrk returned, with their units, are of
the proofs alone. -/
structure Heap (S : Type) where
  ptr : Nat → Nat
  size : Nat → Nat
  freep : Nat := 0
  sys : S
  obtained : List (Nat × Nat) := []

namespace Heap
variable {S : Type}

/-- p + n, where p is a Header pointer. -/
def plus (p n : Nat) : Nat := (p + HEADER * n) % 2 ^ 32

/-- More turns than there are headers. -/
abbrev TURNS : Nat := 2 ^ 33

def freeLoop (h : Heap S) (bp : Nat) : Nat → Nat → Option Nat
  | 0, _ => none
  | fuel + 1, p =>
    if bp > p ∧ bp < h.ptr p then some p
    else if p ≥ h.ptr p ∧ (bp > p ∨ bp < h.ptr p) then some p
    else h.freeLoop bp fuel (h.ptr p)

/-- The first if of free: join bp to the block above it. -/
def joinNext (h : Heap S) (bp p : Nat) : Heap S :=
  if plus bp (h.size bp) = h.ptr p then
    { h with
      size := update h.size bp ((h.size bp + h.size (h.ptr p)) % 2 ^ 32)
      ptr := update h.ptr bp (h.ptr (h.ptr p)) }
  else { h with ptr := update h.ptr bp (h.ptr p) }

/-- The second if of free: join bp to the block below it. -/
def joinPrev (h : Heap S) (bp p : Nat) : Heap S :=
  if plus p (h.size p) = bp then
    { h with
      size := update h.size p ((h.size p + h.size bp) % 2 ^ 32)
      ptr := update h.ptr p (h.ptr bp) }
  else { h with ptr := update h.ptr p bp }

def free (h : Heap S) (ap : Nat) : Option (Heap S) :=
  let bp := (ap + (2 ^ 32 - HEADER)) % 2 ^ 32
  (h.freeLoop bp TURNS h.freep).map fun p => { (h.joinNext bp p).joinPrev bp p with freep := p }

/-- The int that sbrk gets for a uint. -/
def toInt (n : Nat) : Int := if n < 2 ^ 31 then n else (n : Int) - 2 ^ 32

/-- The units that morecore asks for. -/
def coreUnits (nu : Nat) : Nat := if nu < 4096 then 4096 else nu

def morecore (sbrk : S → Int → S × Option Nat) (h : Heap S) (nu : Nat) : Option (Heap S × Nat) :=
  let nu := coreUnits nu
  match sbrk h.sys (toInt (nu * HEADER % 2 ^ 32)) with
  | (sys, none) => some ({ h with sys := sys }, 0)
  | (sys, some hp) =>
    let h := { h with
      sys := sys, size := update h.size hp nu, obtained := h.obtained ++ [(hp, nu)] }
    (h.free (plus hp 1)).map fun h => (h, h.freep)

/-- What malloc does with a block that is large enough. -/
def take (h : Heap S) (prevp p nunits : Nat) : Heap S × Nat :=
  if h.size p = nunits then
    ({ h with ptr := update h.ptr prevp (h.ptr p), freep := prevp }, plus p 1)
  else
    let q := plus p (h.size p - nunits)
    ({ h with size := update (update h.size p (h.size p - nunits)) q nunits, freep := prevp },
      plus q 1)

def mallocLoop (sbrk : S → Int → S × Option Nat) (nunits : Nat) :
    Nat → Heap S → Nat → Nat → Option (Heap S × Nat)
  | 0, _, _, _ => none
  | fuel + 1, h, prevp, p =>
    if h.size p ≥ nunits then some (h.take prevp p nunits)
    else if p = h.freep then
      match h.morecore sbrk nunits with
      | none => none
      | some (h, p) => if p = 0 then some (h, 0) else mallocLoop sbrk nunits fuel h p (h.ptr p)
    else mallocLoop sbrk nunits fuel h p (h.ptr p)

def units (nbytes : Nat) : Nat := (nbytes + (HEADER - 1)) % 2 ^ 32 / HEADER + 1

/-- The first call makes the list of base alone. -/
def start (h : Heap S) (base : Nat) : Heap S :=
  if h.freep = 0 then
    { h with ptr := update h.ptr base base, size := update h.size base 0, freep := base } else h

def malloc (sbrk : S → Int → S × Option Nat) (base : Nat) (h : Heap S) (nbytes : Nat) :
    Option (Heap S × Nat) :=
  let h := h.start base
  mallocLoop sbrk (units nbytes) TURNS h h.freep (h.ptr h.freep)

end Heap

/-- A block ends before the next one begins, with a gap. -/
def Beneath (b c : Nat × Nat) : Prop := b.1 + HEADER * b.2 < c.1

theorem Beneath.lt {c : Nat × Nat} (h : Beneath b c) : b.1 < c.1 := by
  simp only [Beneath] at h
  omega

instance : Trans Beneath Beneath Beneath where
  trans h k := Nat.lt_trans h (Beneath.lt k)

structure Heap.Held (h : Heap S) (bs : List (Nat × Nat)) : Prop where
  tiles : Tiles HEADER bs fun x => ∃ r ∈ h.obtained, Inside HEADER r x
  size : ∀ b ∈ bs, h.size b.1 = b.2

/-- The free list is the circle of base and of the blocks F, in the order of their addresses, and L
are the other blocks. -/
structure Heap.Ok (base top : Nat) (h : Heap S) (F L : List (Nat × Nat)) : Prop where
  circle : Lib.Path h.ptr base (F.map Prod.fst) base
  freep : h.freep ∈ base :: F.map Prod.fst
  empty : h.size base = 0
  held : h.Held (F ++ L)
  order : ((base, 0) :: F).IsChain Beneath
  within : ∀ r ∈ h.obtained, base + HEADER ≤ r.1 ∧ r.1 + HEADER * r.2 ≤ top
  low : base + HEADER ≤ top
  top : top ≤ 2 ^ 31

section Held
variable {S : Type} {h : Heap S} {bs cs : List (Nat × Nat)} {a s t : Nat}

namespace Heap.Held

theorem perm (held : h.Held bs) (same : bs.Perm cs) : h.Held cs :=
  ⟨held.tiles.perm same, fun b mem => held.size b (same.mem_iff.mpr mem)⟩

theorem reorder (held : h.Held bs) (cs : List (Nat × Nat)) (same : ∀ b, bs.count b = cs.count b) :
    h.Held cs :=
  held.perm (List.perm_iff_count.mpr same)

theorem ne_first (held : h.Held ((a, s) :: bs)) (mem : b ∈ bs) : b.1 ≠ a := by
  have apart := (List.pairwise_cons.mp held.tiles.apart).1 b mem
  have first := held.tiles.pos _ List.mem_cons_self
  have other := held.tiles.pos b (List.mem_cons_of_mem _ mem)
  rintro rfl
  simp only [Off, HEADER] at apart
  omega

theorem relink (held : h.Held bs) (ptr : Nat → Nat) : ({ h with ptr := ptr } : Heap S).Held bs :=
  ⟨held.tiles, held.size⟩

theorem join (held : h.Held ((a, s) :: (a + HEADER * s, t) :: bs)) (ptr : Nat → Nat) :
    ({ h with size := update h.size a (s + t), ptr := ptr } : Heap S).Held ((a, s + t) :: bs) := by
  have hs := held.tiles.pos (a, s) List.mem_cons_self
  have ht := held.tiles.pos (a + HEADER * s, t) (List.mem_cons_of_mem _ List.mem_cons_self)
  refine ⟨(tiles_join (by decide) hs ht).mp held.tiles, fun b mem => ?_⟩
  rcases List.mem_cons.mp mem with rfl | mem
  · exact update_self _ _ _
  · have old := List.mem_cons_of_mem (a + HEADER * s, t) mem
    exact (update_of_ne (held.ne_first old) _ _).trans (held.size b (List.mem_cons_of_mem _ old))

theorem cut (held : h.Held ((a, s + t) :: bs)) (hs : 0 < s) (ht : 0 < t) :
    ({ h with size := update (update h.size a s) (a + HEADER * s) t } : Heap S).Held
      ((a, s) :: (a + HEADER * s, t) :: bs) := by
  have tiles := (tiles_join (by decide) hs ht).mpr held.tiles
  have first := List.pairwise_cons.mp tiles.apart
  have old (b) (mem : b ∈ bs) : h.size b.1 = b.2 ∧ b.1 ≠ a ∧ b.1 ≠ a + HEADER * s := by
    have off := (List.pairwise_cons.mp first.2).1 b mem
    have pos := tiles.pos b (List.mem_cons_of_mem _ (List.mem_cons_of_mem _ mem))
    refine ⟨held.size b (List.mem_cons_of_mem _ mem), held.ne_first mem, ?_⟩
    simp only [Off, HEADER] at off ⊢
    omega
  refine ⟨tiles, fun b mem => ?_⟩
  rcases List.mem_cons.mp mem with rfl | mem
  · have differ : a ≠ a + HEADER * s := by simp only [HEADER]; omega
    exact (update_of_ne differ _ _).trans (update_self _ _ _)
  · rcases List.mem_cons.mp mem with rfl | mem
    · exact update_self _ _ _
    · obtain ⟨size, ne, ne'⟩ := old b mem
      exact (update_of_ne ne' _ _).trans ((update_of_ne ne _ _).trans size)

theorem bounds {base top : Nat} (held : h.Held bs)
    (within : ∀ r ∈ h.obtained, base + HEADER ≤ r.1 ∧ r.1 + HEADER * r.2 ≤ top)
      (mem : b ∈ bs) :
    base + HEADER ≤ b.1 ∧ b.1 + HEADER * b.2 ≤ top ∧ 0 < b.2 := by
  obtain ⟨low, high⟩ := held.tiles.bounds (by decide) (fun x ⟨r, mem, low, high⟩ =>
    ⟨(within r mem).1.trans low, high.trans_le (within r mem).2⟩) mem
  exact ⟨low, high, held.tiles.pos b mem⟩

end Heap.Held

end Held

section Free
variable {S : Type} {base top : Nat} {h : Heap S} {F L : List (Nat × Nat)} {bp s : Nat}

namespace Heap

def Stops (h : Heap S) (bp p : Nat) : Prop :=
  (bp > p ∧ bp < h.ptr p) ∨ (p ≥ h.ptr p ∧ (bp > p ∨ bp < h.ptr p))

theorem freeLoop_stops (stops : h.Stops bp p) : h.freeLoop bp (n + 1) p = some p := by
  rw [freeLoop]
  split
  · rfl
  · rename_i inside
    rw [if_pos (stops.resolve_left inside)]

theorem freeLoop_next (stops : ¬ h.Stops bp p) :
    h.freeLoop bp (n + 1) p = h.freeLoop bp n (h.ptr p) := by
  rw [freeLoop, if_neg fun inside => stops (.inl inside), if_neg fun last => stops (.inr last)]

theorem freeLoop_finds {c : Nat} {xs : List Nat} {fuel : Nat} (path : Lib.Path h.ptr p xs c)
    (found : ∃ q ∈ p :: xs, h.Stops bp q) (enough : xs.length < fuel) :
    ∃ q ∈ p :: xs, h.Stops bp q ∧ h.freeLoop bp fuel p = some q := by
  obtain ⟨q, mem, stops⟩ := found
  induction xs generalizing p fuel with
  | nil =>
    obtain ⟨n, rfl⟩ := Nat.exists_eq_succ_of_ne_zero (Nat.ne_of_gt enough)
    cases List.mem_singleton.mp mem
    exact ⟨_, mem, stops, freeLoop_stops stops⟩
  | cons x xs ih =>
    obtain ⟨n, rfl⟩ := Nat.exists_eq_succ_of_ne_zero (Nat.ne_of_gt (Nat.zero_lt_of_lt enough))
    by_cases here : h.Stops bp p
    · exact ⟨p, List.mem_cons_self, here, freeLoop_stops here⟩
    · have later := (List.mem_cons.mp mem).resolve_left fun same => here (same ▸ stops)
      obtain ⟨r, place, ends, result⟩ := ih path.2 (by simpa using enough) later
      exact ⟨r, List.mem_cons_of_mem p place, ends, by rw [freeLoop_next here, path.1, result]⟩

theorem exists_pred {x : Nat × Nat} (xs : List (Nat × Nat)) (first : x.1 < bp) :
    ∃ front q back, x :: xs = front ++ q :: back ∧ q.1 < bp ∧ ∀ y ∈ back.head?, bp ≤ y.1 := by
  induction xs generalizing x with
  | nil => exact ⟨[], x, [], rfl, first, by simp⟩
  | cons y ys ih =>
    by_cases second : y.1 < bp
    · obtain ⟨front, q, back, split, below, above⟩ := ih second
      exact ⟨x :: front, q, back, by rw [split]; rfl, below, above⟩
    · exact ⟨[], x, y :: ys, rfl, first, by simpa using second⟩

theorem Ok.bounds (ok : h.Ok base top F L) (mem : b ∈ F ++ L) :
    base + HEADER ≤ b.1 ∧ b.1 + HEADER * b.2 ≤ top ∧ 0 < b.2 :=
  ok.held.bounds ok.within mem

theorem Ok.ptr_of_split (ok : h.Ok base top F L)
    (split : (base, 0) :: F = front ++ q :: back) : Lib.Path h.ptr q.1 (back.map Prod.fst) base ∧
      Visits h.ptr (front.map Prod.fst) q.1 := by
  have visits : Visits h.ptr (((base, 0) :: F).map Prod.fst) base := ok.circle
  rw [split, List.map_append, List.map_cons, visits_append] at visits
  exact visits.symm

theorem Ok.sorted (ok : h.Ok base top F L) : (base :: F.map Prod.fst).Pairwise (· < ·) :=
  List.Pairwise.map Prod.fst (fun _ _ => Beneath.lt) (List.isChain_iff_pairwise.mp ok.order)

theorem Ok.short (ok : h.Ok base top F L) : F.length ≤ 2 ^ 31 := by
  have nodup : (F.map Prod.fst).Nodup := (List.pairwise_cons.mp ok.sorted).2.imp Nat.ne_of_lt
  have low : (F.map Prod.fst).toFinset ⊆ Finset.range (2 ^ 31) := by
    intro x mem
    obtain ⟨b, place, rfl⟩ := List.mem_map.mp (List.mem_toFinset.mp mem)
    have bounds := ok.bounds (List.mem_append_left L place)
    have := ok.top
    exact Finset.mem_range.mpr (by simp only [HEADER] at bounds; omega)
  have count := Finset.card_le_card low
  rwa [List.toFinset_card_of_nodup nodup, List.length_map, Finset.card_range] at count

theorem Ok.around (ok : h.Ok base top F L) : ∃ ring, Lib.Path h.ptr h.freep ring h.freep ∧
    (h.freep :: ring).Perm (base :: F.map Prod.fst) ∧ ring.length ≤ 2 ^ 31 := by
  obtain ⟨before, after, nodes⟩ := List.append_of_mem ok.freep
  have same : (h.freep :: (after ++ before)).Perm (base :: F.map Prod.fst) := by
    rw [nodes]
    exact @List.perm_append_comm _ (h.freep :: after) before
  refine ⟨_, ok.circle.rotate nodes, same, ?_⟩
  have := same.length_eq
  have := ok.short
  simp only [List.length_cons, List.length_map] at *
  omega

theorem Ok.stops_iff (ok : h.Ok base top F L)
    (split : (base, 0) :: F = front ++ q :: back) (low : base < bp) :
    h.Stops bp q.1 ↔ q.1 < bp ∧ ∀ y ∈ back.head?, bp < y.1 := by
  have sorted : (((base, 0) :: F).map Prod.fst).Pairwise (· < ·) := ok.sorted
  have least : base ≤ q.1 := by
    have mem : q ∈ (base, 0) :: F := split ▸ List.mem_append_right _ List.mem_cons_self
    rcases List.mem_cons.mp mem with rfl | mem
    · exact Nat.le_refl _
    · exact Nat.le_of_lt ((List.pairwise_cons.mp ok.sorted).1 _ (List.mem_map_of_mem mem))
  have next := (ok.ptr_of_split split).1.first
  rw [split, List.map_append, List.map_cons, List.pairwise_append, List.pairwise_cons] at sorted
  cases back with
  | nil =>
    simp only [List.map_nil, List.head?_nil, Option.getD_none] at next
    simp only [Stops, next, List.head?_nil, Option.mem_def, reduceCtorEq, false_imp_iff,
      implies_true, and_true]
    omega
  | cons y back =>
    simp only [List.map_cons, List.head?_cons, Option.getD_some] at next
    have above := sorted.2.1.1 y.1 (List.mem_map_of_mem List.mem_cons_self)
    simp only [Stops, next, List.head?_cons, Option.mem_def, Option.some.injEq, forall_eq']
    omega

theorem Ok.loop_ends (ok : h.Ok base top F L) (low : base < bp) (fresh : ∀ b ∈ F, b.1 ≠ bp)
    {g : Heap S} (ptr : g.ptr = h.ptr) (freep : g.freep = h.freep) :
    ∃ front q back, (base, 0) :: F = front ++ q :: back ∧ g.freeLoop bp TURNS g.freep = some q.1 ∧
      q.1 < bp ∧ ∀ y ∈ back.head?, bp < y.1 := by
  have same (p : Nat) : g.Stops bp p ↔ h.Stops bp p := by rw [Stops, Stops, ptr]
  -- some node stops the loop, and it is met from freep on
  obtain ⟨front, q, back, split, below, above⟩ := @exists_pred bp (base, 0) F low
  have stops : g.Stops bp q.1 := by
    refine (same _).mpr ((ok.stops_iff split low).mpr ⟨below,
      fun y mem => Nat.lt_of_le_of_ne (above y mem) ?_⟩)
    have inner : y ∈ front ++ q :: back :=
      List.mem_append_right _ (List.mem_cons_of_mem q (List.mem_of_mem_head? mem))
    rw [← split] at inner
    rcases List.mem_cons.mp inner with rfl | inner
    · exact Nat.ne_of_gt low
    · exact (fresh y inner).symm
  obtain ⟨ring, path, around, short⟩ := ok.around
  have member : q.1 ∈ h.freep :: ring := by
    have inner : q ∈ (base, 0) :: F := split ▸ List.mem_append_right _ List.mem_cons_self
    exact around.mem_iff.mpr (List.mem_map_of_mem (f := Prod.fst) inner)
  have turns : ring.length < TURNS := Nat.lt_of_le_of_lt short (by decide)
  rw [← ptr, ← freep] at path
  obtain ⟨p, place, last, result⟩ := freeLoop_finds path ⟨_, freep ▸ member, stops⟩ turns
  -- the node where it ends is a block of the list, or base
  have inner : p ∈ ((base, 0) :: F).map Prod.fst := around.mem_iff.mp (freep ▸ place)
  obtain ⟨b, mem, rfl⟩ := List.mem_map.mp inner
  obtain ⟨front, back, split⟩ := List.append_of_mem mem
  exact ⟨front, b, back, split, result, (ok.stops_iff split low).mp ((same _).mp last)⟩

theorem Ok.search (ok : h.Ok base top F ((bp, s) :: L)) :
    ∃ front q back, (base, 0) :: F = front ++ q :: back ∧ h.freeLoop bp TURNS h.freep = some q.1 ∧
      q.1 + HEADER * q.2 ≤ bp ∧ ∀ y ∈ back.head?, bp + HEADER * s ≤ y.1 := by
  have bounds := ok.bounds (List.mem_append_right F List.mem_cons_self)
  have low : base < bp := by simp only [HEADER] at bounds; omega
  have off (b) (mem : b ∈ F) : Off HEADER b (bp, s) ∧ 0 < b.2 :=
    ⟨(List.pairwise_append.mp ok.held.tiles.apart).2.2 b mem _ List.mem_cons_self,
      (ok.bounds (List.mem_append_left _ mem)).2.2⟩
  obtain ⟨front, q, back, split, result, below, above⟩ := ok.loop_ends low (fun b mem same => by
    obtain ⟨apart, some⟩ := off b mem
    simp only [Off, HEADER] at apart bounds
    omega) rfl rfl
  refine ⟨front, q, back, split, result, ?_, fun y head => ?_⟩
  · have inner : q ∈ (base, 0) :: F := split ▸ List.mem_append_right _ List.mem_cons_self
    rcases List.mem_cons.mp inner with rfl | inner
    · exact Nat.le_of_lt low
    · have := (off q inner).1
      simp only [Off, HEADER] at this bounds ⊢
      omega
  · have inner : y ∈ front ++ q :: back :=
      List.mem_append_right _ (List.mem_cons_of_mem q (List.mem_of_mem_head? head))
    rw [← split] at inner
    have above := above y head
    obtain ⟨apart, some⟩ :=
        off y ((List.mem_cons.mp inner).resolve_left fun e => by simp [e] at above; omega)
    simp only [Off, HEADER] at apart ⊢
    omega

theorem joinNext_apart {q : Nat} (differ : plus bp (h.size bp) ≠ h.ptr q) :
    h.joinNext bp q =
      { h with size := update h.size bp (h.size bp), ptr := update h.ptr bp (h.ptr q) } := by
  rw [joinNext, if_neg differ, Function.update_eq_self]

theorem joinNext_spec {q : Nat} {R : List (Nat × Nat)}
    (path : Lib.Path h.ptr q (back.map Prod.fst) base)
    (held : h.Held ((bp, s) :: (back ++ R))) (chain : back.IsChain Beneath)
    (above : ∀ y ∈ back.head?, bp + HEADER * s ≤ y.1) (low : base < bp)
    (high : ∀ b ∈ (bp, s) :: back, b.1 + HEADER * b.2 ≤ 2 ^ 31) :
    ∃ n back' next, h.joinNext bp q =
      { h with size := update h.size bp n, ptr := update h.ptr bp next } ∧
      s ≤ n ∧ (h.joinNext bp q).Held ((bp, n) :: (back' ++ R)) ∧ (∀ b ∈ back', b ∈ back) ∧
      Lib.Path (update h.ptr bp next) bp (back'.map Prod.fst) base ∧
        ((bp, n) :: back').IsChain Beneath := by
  have size : h.size bp = s := held.size _ List.mem_cons_self
  have fresh (x) (mem : x ∈ back.map Prod.fst) : x ≠ bp := by
    obtain ⟨b, inner, rfl⟩ := List.mem_map.mp mem
    exact held.ne_first (List.mem_append_left R inner)
  have fits := high _ List.mem_cons_self
  have ends : plus bp (h.size bp) = bp + HEADER * s := by
    rw [size]
    exact Nat.mod_eq_of_lt (by simp only at fits; omega)
  -- bp is not joined: it is put before the blocks above it
  have apart (differ : bp + HEADER * s ≠ h.ptr q) (gap : ∀ y ∈ back.head?, Beneath (bp, s) y) :
      ∃ n back' next, h.joinNext bp q =
        { h with size := update h.size bp n, ptr := update h.ptr bp next } ∧
        s ≤ n ∧ (h.joinNext bp q).Held ((bp, n) :: (back' ++ R)) ∧ (∀ b ∈ back', b ∈ back) ∧
        Lib.Path (update h.ptr bp next) bp (back'.map Prod.fst) base ∧
          ((bp, n) :: back').IsChain Beneath := by
    refine ⟨s, back, h.ptr q, ?_, Nat.le_refl s, ?_, fun b mem => mem, ?_,
      List.isChain_cons.mpr ⟨gap, chain⟩⟩
    · rw [joinNext_apart (ends ▸ differ), size]
    · rw [joinNext, if_neg (ends ▸ differ)]
      exact held.relink _
    · exact path.restart (update_self _ _ _) fun x mem => update_of_ne (fresh x mem) _ _
  cases back with
  | nil =>
    refine apart ?_ (by simp)
    rw [show h.ptr q = base from path]
    omega
  | cons y back =>
    obtain ⟨next, path⟩ := path
    by_cases touch : bp + HEADER * s = y.1
    · have join : h.joinNext bp q =
        { h with size := update h.size bp (s + y.2), ptr := update h.ptr bp (h.ptr y.1) } := by
        have above := high y (List.mem_cons_of_mem _ List.mem_cons_self)
        have last : h.size y.1 = y.2 := held.size y (List.mem_cons_of_mem _ List.mem_cons_self)
        have sum : (s + y.2) % 2 ^ 32 = s + y.2 :=
          Nat.mod_eq_of_lt (by simp only [HEADER] at *; omega)
        rw [joinNext, if_pos (by rw [ends, next, touch]), next, size, last, sum]
      refine ⟨s + y.2, back, h.ptr y.1, join, Nat.le_add_right _ _, ?_,
        fun b => List.mem_cons_of_mem y, ?_, ?_⟩
      · rw [join]
        exact Held.join (touch ▸ held) _
      · exact path.restart (update_self _ _ _) fun x mem => update_of_ne
          (fresh x (List.mem_cons_of_mem _ mem)) _ _
      · refine List.isChain_cons.mpr ⟨fun z head => ?_, (List.isChain_cons.mp chain).2⟩
        have := (List.isChain_cons.mp chain).1 z head
        simp only [Beneath, HEADER] at this touch ⊢
        omega
    · refine apart (next ▸ touch) fun z head => ?_
      cases Option.some.inj head
      exact Nat.lt_of_le_of_ne (above y rfl) touch

theorem joinPrev_spec {R : List (Nat × Nat)}
    (below : q.1 + HEADER * q.2 ≤ bp)
    (differ : q.1 ≠ bp) (size : h.size q.1 = q.2) (high : bp + HEADER * n ≤ 2 ^ 31)
    (path : Lib.Path h.ptr bp (back.map Prod.fst) base) (out : ∀ b ∈ back, b.1 ≠ q.1)
    (held : h.Held ((bp, n) :: R)) (chain : ((bp, n) :: back).IsChain Beneath) :
    (∃ ptr, h.joinPrev bp q.1 = { h with ptr := ptr } ∧ (∀ x, x ≠ q.1 → ptr x = h.ptr x) ∧
      Lib.Path ptr q.1 (((bp, n) :: back).map Prod.fst) base ∧
      (q :: (bp, n) :: back).IsChain Beneath) ∨
    (q.1 + HEADER * q.2 = bp ∧ ∃ ptr,
      h.joinPrev bp q.1 = { h with size := update h.size q.1 (q.2 + n), ptr := ptr } ∧
      (∀ x, x ≠ q.1 → ptr x = h.ptr x) ∧ Lib.Path ptr q.1 (back.map Prod.fst) base ∧
      ((q.1, q.2 + n) :: back).IsChain Beneath) := by
  have own : h.size bp = n := held.size _ List.mem_cons_self
  have ends : plus q.1 (h.size q.1) = q.1 + HEADER * q.2 := by
    rw [size]
    exact Nat.mod_eq_of_lt (by omega)
  have fresh (x) (mem : x ∈ back.map Prod.fst) : x ≠ q.1 := by
    obtain ⟨b, inner, rfl⟩ := List.mem_map.mp mem
    exact out b inner
  by_cases touch : q.1 + HEADER * q.2 = bp
  · have sum : (q.2 + n) % 2 ^ 32 = q.2 + n := Nat.mod_eq_of_lt (by simp only [HEADER] at *; omega)
    refine .inr ⟨touch, update h.ptr q.1 (h.ptr bp), ?_,
      fun x other => update_of_ne other _ _, ?_, ?_⟩
    · rw [joinPrev, if_pos (ends.trans touch), size, own, sum]
    · exact path.restart (update_self _ _ _) fun x mem => update_of_ne (fresh x mem) _ _
    · refine List.isChain_cons.mpr ⟨fun z head => ?_, (List.isChain_cons.mp chain).2⟩
      have := (List.isChain_cons.mp chain).1 z head
      simp only [Beneath, HEADER] at this touch ⊢
      omega
  · refine .inl ⟨update h.ptr q.1 bp, ?_, fun x other => update_of_ne other _ _,
      ⟨update_self _ _ _, ?_⟩, ?_⟩
    · rw [joinPrev, if_neg (ends ▸ touch)]
    · refine path.congr fun x mem => ?_
      rcases List.mem_cons.mp mem with rfl | mem
      · exact update_of_ne differ.symm _ _
      · exact update_of_ne (fresh x mem) _ _
    · exact List.isChain_cons_cons.mpr ⟨Nat.lt_of_le_of_ne below touch, chain⟩

theorem Ok.close {g : Heap S} {F' L' : List (Nat × Nat)}
    (ok : h.Ok base top F L)
    (q' : Nat × Nat) (rest : List (Nat × Nat)) (split : (base, 0) :: F = front ++ q :: back)
    (split' : (base, 0) :: F' = front ++ q' :: rest) (same : q'.1 = q.1)
    (ptr : ∀ x ∈ front.map Prod.fst, g.ptr x = h.ptr x)
    (path : Lib.Path g.ptr q.1 (rest.map Prod.fst) base)
    (chain : (q' :: rest).IsChain Beneath) (freep : g.freep = q.1) (empty : g.size base = 0)
    (held : g.Held (F' ++ L')) (obtained : g.obtained = h.obtained) : g.Ok base top F' L' := by
  have nodes : base :: F'.map Prod.fst = front.map Prod.fst ++ q'.1 :: rest.map Prod.fst := by
    simpa using congrArg (List.map Prod.fst) split'
  have circle : Visits g.ptr (base :: F'.map Prod.fst) base := by
    rw [nodes, visits_append, same]
    exact ⟨(ok.ptr_of_split split).2.congr ptr, path⟩
  refine ⟨circle, ?_, empty, held, ?_, obtained ▸ ok.within, ok.low, ok.top⟩
  · rw [freep, nodes, same]
    exact List.mem_append_right _ List.mem_cons_self
  · have order := ok.order
    rw [split, List.isChain_append] at order
    rw [split', List.isChain_append]
    refine ⟨order.1, chain, fun x last y head => ?_⟩
    cases Option.some.inj head
    have := order.2.2 x last q rfl
    simpa only [Beneath, same] using this

theorem blocks_of_split
    (split : (base, 0) :: F = front ++ q :: back) :
    ∃ R, F = R ++ back ∧ ∀ rest, (base, 0) :: (R ++ rest) = front ++ q :: rest := by
  cases front with
  | nil =>
    cases split
    exact ⟨[], rfl, fun rest => rfl⟩
  | cons x front =>
    cases split
    exact ⟨front ++ [q], by simp, fun rest => by simp⟩

theorem Ok.front_lt (ok : h.Ok base top F L)
    (split : (base, 0) :: F = front ++ q :: back) {x : Nat} (mem : x ∈ front.map Prod.fst) :
      x < q.1 := by
  have sorted : (((base, 0) :: F).map Prod.fst).Pairwise (· < ·) := ok.sorted
  rw [split, List.map_append, List.map_cons, List.pairwise_append] at sorted
  exact sorted.2.2 x mem q.1 List.mem_cons_self

theorem Ok.lt_back (ok : h.Ok base top F L)
    (split : (base, 0) :: F = front ++ q :: back) (mem : b ∈ back) : q.1 < b.1 := by
  have sorted : (((base, 0) :: F).map Prod.fst).Pairwise (· < ·) := ok.sorted
  rw [split, List.map_append, List.map_cons, List.pairwise_append, List.pairwise_cons] at sorted
  exact sorted.2.1.1 b.1 (List.mem_map_of_mem mem)

theorem Ok.size_node (ok : h.Ok base top F L) (mem : q ∈ (base, 0) :: F) :
    h.size q.1 = q.2 := by
  rcases List.mem_cons.mp mem with rfl | mem
  · exact ok.empty
  · exact ok.held.size q (List.mem_append_left L mem)

theorem Ok.free (ok : h.Ok base top F ((bp, s) :: L)) :
    ∃ g F', h.free (bp + HEADER) = some g ∧ g.Ok base top F' L ∧ g.sys = h.sys ∧
      g.obtained = h.obtained ∧
      ∃ b ∈ F', s ≤ b.2 := by
  have bounds := ok.bounds (List.mem_append_right F List.mem_cons_self)
  have top := ok.top
  have low : base < bp := by simp only [HEADER] at bounds; omega
  obtain ⟨front, q, back, split, result, below, above⟩ := ok.search
  obtain ⟨path, -⟩ := ok.ptr_of_split split
  obtain ⟨R, blocks, nodes⟩ := blocks_of_split split
  have member : q ∈ (base, 0) :: F := split ▸ List.mem_append_right _ List.mem_cons_self
  have before : q.1 < bp := by
    rcases List.mem_cons.mp member with rfl | mem
    · exact low
    · have := ok.bounds (List.mem_append_left _ mem)
      simp only [HEADER] at this below
      omega
  have held : h.Held ((bp, s) :: (back ++ (R ++ L))) := by
    refine ok.held.reorder _ fun b => ?_
    simp only [blocks, List.count_append, List.count_cons]
    omega
  have high (b) (mem : b ∈ (bp, s) :: back) : b.1 + HEADER * b.2 ≤ 2 ^ 31 := by
    refine (ok.bounds (b := b) ?_).2.1.trans top
    rw [blocks]
    rcases List.mem_cons.mp mem with rfl | mem
    · exact List.mem_append_right _ List.mem_cons_self
    · exact List.mem_append_left _ (List.mem_append_right _ mem)
  obtain ⟨n, rest, next, first, more, held, sub, path, chain⟩ := joinNext_spec path held
    (List.isChain_append.mp (split ▸ ok.order)).2.1.tail above low high
  have freed : h.free (bp + HEADER) = some
      { (h.joinNext bp q.1).joinPrev bp q.1 with freep := q.1 } := by
    have back : (bp + HEADER + (2 ^ 32 - HEADER)) % 2 ^ 32 = bp := by simp only [HEADER] at *; omega
    simp only [Heap.free, back, result, Option.map_some]
  rw [first] at held freed
  have front_ne {x : Nat} (mem : x ∈ front.map Prod.fst) : x ≠ q.1 ∧ x ≠ bp := by
    have := ok.front_lt split mem
    omega
  have empty (n : Nat) : update h.size bp n base = 0 :=
    (update_of_ne (Nat.ne_of_lt low) _ _).trans ok.empty
  have mine : update h.size bp n q.1 = q.2 :=
    (update_of_ne (Nat.ne_of_lt before) _ _).trans (ok.size_node member)
  have fits := (held.bounds ok.within List.mem_cons_self).2.1.trans top
  rcases joinPrev_spec below (Nat.ne_of_lt before) mine fits path
    (fun b mem => Nat.ne_of_gt (ok.lt_back split (sub b mem))) held chain with
    ⟨ptr, second, others, path, chain⟩ | ⟨touch, ptr, second, others, path, chain⟩
  · rw [second] at freed
    refine ⟨_, R ++ (bp, n) :: rest, freed, ?_, rfl, rfl, (bp, n), by simp, more⟩
    refine ok.close q ((bp, n) :: rest) split ?_ rfl (fun x mem => ?_) path chain rfl
      (empty n) ?_ rfl
    · exact nodes _
    · exact (others x (front_ne mem).1).trans (update_of_ne (front_ne mem).2 _ _)
    · have moved := (held.relink ptr).reorder (R ++ (bp, n) :: rest ++ L) fun b => by
        simp only [List.count_append, List.count_cons]
        omega
      exact ⟨moved.tiles, moved.size⟩
  · rw [second] at freed
    obtain ⟨front, rfl⟩ : ∃ inner, front = (base, 0) :: inner := by
      cases front with
      | nil =>
        cases split
        simp only at touch
        omega
      | cons x front => exact ⟨front, by cases split; rfl⟩
    obtain rfl : R = front ++ [q] := by simpa using (List.cons.inj (nodes [])).2
    refine ⟨_, front ++ (q.1, q.2 + n) :: rest, freed, ?_, rfl, rfl, (q.1, q.2 + n), by simp,
      by simp only; omega⟩
    refine ok.close (q.1, q.2 + n) rest split rfl rfl (fun x mem => ?_) path chain rfl ?_ ?_ rfl
    · exact (others x (front_ne mem).1).trans (update_of_ne (front_ne mem).2 _ _)
    · exact (update_of_ne (front_ne List.mem_cons_self).1 _ _).trans (empty n)
    · have facing :=
        held.reorder ((q.1, q.2) :: (q.1 + HEADER * q.2, n) :: (front ++ rest ++ L)) fun b => by
        simp only [Prod.mk.eta, touch, List.count_append, List.count_cons, List.count_nil]
        omega
      have joined := (facing.join ptr).reorder (front ++ (q.1, q.2 + n) :: rest ++ L) fun b => by
        simp only [List.count_append, List.count_cons]
        omega
      exact ⟨joined.tiles, joined.size⟩

end Heap

end Free

end MmapXv6
