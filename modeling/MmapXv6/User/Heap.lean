import MmapXv6.Lib.Run
import MmapXv6.User.Malloc

/-! Runs of malloc and free in which free gets what malloc returned. The system gives sbrk
fresh memory, above all it gave before. -/
namespace MmapXv6

open Function (update update_of_ne update_self)
open Lib (Inside Off Reaches Tiles)

/-- sbrk fails, or returns memory above all it returned before and below KERNBASE. -/
structure FreshSbrk (sbrk : S → Int → S × Option Nat) (top : S → Nat) : Prop where
  fails : ∀ s n t, 0 < n → n < 2 ^ 31 → sbrk s n = (t, none) → top s ≤ top t
  fresh : ∀ s n t a, 0 < n → n < 2 ^ 31 → sbrk s n = (t, some a) → top s ≤ a ∧ a + n.toNat ≤ top t
  bound : ∀ s, top s ≤ 2 ^ 31

section Malloc
variable {S : Type} {base top : Nat} {h : Heap S} {F L : List (Nat × Nat)} {n : Nat}
  {sbrk : S → Int → S × Option Nat}

namespace Heap

def grow (sbrk : S → Int → S × Option Nat) (n fuel : Nat) (h : Heap S) : Option (Heap S × Nat) :=
  match h.morecore sbrk n with
  | none => none
  | some (h, p) => if p = 0 then some (h, 0) else mallocLoop sbrk n fuel h p (h.ptr p)

theorem mallocLoop_round (sbrk : S → Int → S × Option Nat) (n : Nat) {prevp : Nat} {xs : List Nat}
    (path : Lib.Path h.ptr prevp xs h.freep)
    (out : h.freep ∉ xs) (fuel : Nat) :
    (∃ q ∈ prevp :: xs, n ≤ h.size (h.ptr q) ∧
      mallocLoop sbrk n (fuel + xs.length + 1) h prevp (h.ptr prevp) =
      some (h.take q (h.ptr q) n)) ∨
    ((∀ x ∈ xs ++ [h.freep], h.size x < n) ∧
      mallocLoop sbrk n (fuel + xs.length + 1) h prevp (h.ptr prevp) = h.grow sbrk n fuel) := by
  induction xs generalizing prevp with
  | nil =>
    have last : h.ptr prevp = h.freep := path
    rw [mallocLoop]
    by_cases enough : n ≤ h.size (h.ptr prevp)
    · exact .inl ⟨prevp, List.mem_cons_self, enough, if_pos enough⟩
    · refine .inr ⟨by simpa [last] using enough, ?_⟩
      rw [if_neg enough, if_pos last]
      rfl
  | cons x xs ih =>
    obtain ⟨rfl, path⟩ := path
    rw [mallocLoop]
    by_cases enough : n ≤ h.size (h.ptr prevp)
    · exact .inl ⟨prevp, List.mem_cons_self, enough, if_pos enough⟩
    · have other : h.ptr prevp ≠ h.freep := fun same => out (same ▸ List.mem_cons_self)
      rw [if_neg enough, if_neg other]
      rcases ih path (fun mem => out (List.mem_cons_of_mem _ mem)) with ⟨q, mem, fits, found⟩
        | ⟨none, grown⟩
      · exact .inl ⟨q, List.mem_cons_of_mem _ mem, fits, found⟩
      · refine .inr ⟨fun y mem => ?_, grown⟩
        rcases List.mem_cons.mp mem with rfl | mem
        · exact Nat.lt_of_not_le enough
        · exact none y mem

theorem Ok.take (ok : h.Ok base top F L) (pos : 0 < n) {q : Nat} (mem : q ∈ base :: F.map Prod.fst)
    (enough : n ≤ h.size (h.ptr q)) :
    ∃ F' a, (h.take q (h.ptr q) n).2 = a + HEADER ∧
      (h.take q (h.ptr q) n).1.Ok base top F' ((a, n) :: L) ∧
      (h.take q (h.ptr q) n).1.sys = h.sys ∧ (h.take q (h.ptr q) n).1.obtained = h.obtained ∧
        ∃ b ∈ F, n ≤ b.2 := by
  obtain ⟨b, inner, rfl⟩ : ∃ b ∈ (base, 0) :: F, b.1 = q := by
    rw [← List.mem_map]
    exact mem
  obtain ⟨front, back, split⟩ := List.append_of_mem inner
  obtain ⟨path, -⟩ := ok.ptr_of_split split
  cases back with
  | nil =>
    rw [show h.ptr b.1 = base from path, ok.empty] at enough
    omega
  | cons c back =>
    obtain ⟨next, path⟩ := path
    obtain ⟨R, rfl, nodes⟩ := blocks_of_split split
    have bounds := ok.bounds (b := c) (by simp)
    have top := ok.top
    have size : h.size c.1 = c.2 := ok.held.size c (by simp)
    have first := ok.lt_back split List.mem_cons_self
    have chain := (List.isChain_append.mp (split ▸ ok.order)).2.1
    obtain ⟨gap, later⟩ := List.isChain_cons_cons.mp chain
    have outside (x) (mem : x ∈ front.map Prod.fst) : x ≠ b.1 :=
      Nat.ne_of_lt (ok.front_lt split mem)
    rw [next] at enough ⊢
    rw [size] at enough
    simp only [HEADER] at bounds
    by_cases whole : c.2 = n
    · have taken : h.take b.1 c.1 n =
          ({ h with ptr := update h.ptr b.1 (h.ptr c.1), freep := b.1 }, c.1 + HEADER) := by
        rw [Heap.take, if_pos (size.trans whole)]
        exact congrArg _ (Nat.mod_eq_of_lt (by simp only [HEADER]; omega))
      rw [taken]
      refine ⟨R ++ back, c.1, rfl, ok.close b back split (nodes back) rfl (fun x mem => ?_) ?_ ?_
        rfl ok.empty ?_ rfl,
        rfl, rfl, c, by simp, enough⟩
      · exact update_of_ne (outside x mem) _ _
      · refine path.restart (update_self _ _ _) fun x mem => update_of_ne ?_ _ _
        obtain ⟨d, inner, rfl⟩ := List.mem_map.mp mem
        exact Nat.ne_of_gt (ok.lt_back split (List.mem_cons_of_mem c inner))
      · exact List.isChain_cons.mpr
          ⟨fun z head => Trans.trans gap ((List.isChain_cons.mp later).1 z head),
          (List.isChain_cons.mp later).2⟩
      · have moved := ok.held.reorder (R ++ back ++ (c.1, n) :: L) fun d => by
          simp only [← whole, Prod.mk.eta, List.count_append, List.count_cons]
          omega
        exact ⟨moved.tiles, moved.size⟩
    · obtain ⟨m, total⟩ := Nat.exists_eq_add_of_le' enough
      have taken : h.take b.1 c.1 n =
          ({ h with size := update (update h.size c.1 m) (c.1 + HEADER * m) n, freep := b.1 },
            c.1 + HEADER * m + HEADER) := by
        have rest : h.size c.1 - n = m := by omega
        have header : plus c.1 m = c.1 + HEADER * m :=
          Nat.mod_eq_of_lt (by simp only [HEADER]; omega)
        rw [Heap.take, if_neg fun same => whole (size.symm.trans same), rest, header]
        exact congrArg _ (Nat.mod_eq_of_lt (by simp only [HEADER]; omega))
      rw [taken]
      refine ⟨R ++ (c.1, m) :: back, c.1 + HEADER * m, rfl,
        ok.close b ((c.1, m) :: back) split (nodes _) rfl (fun x mem => rfl) ⟨next, path⟩ ?_ rfl ?_
          ?_ rfl,
        rfl, rfl, c, by simp, enough⟩
      · refine List.isChain_cons_cons.mpr ⟨gap, List.isChain_cons.mpr
          ⟨fun z head => ?_, (List.isChain_cons.mp later).2⟩⟩
        have := (List.isChain_cons.mp later).1 z head
        simp only [Beneath, HEADER] at this ⊢
        omega
      · have other : base ≠ c.1 + HEADER * m := by omega
        have first : base ≠ c.1 := by omega
        exact (update_of_ne other _ _).trans ((update_of_ne first _ _).trans ok.empty)
      · have front := ok.held.reorder ((c.1, m + n) :: (R ++ back ++ L)) fun d => by
          simp only [← total, Prod.mk.eta, List.count_append, List.count_cons]
          omega
        have moved := (front.cut (by omega) pos).reorder
          (R ++ (c.1, m) :: back ++ (c.1 + HEADER * m, n) :: L) fun d => by
            simp only [List.count_append, List.count_cons]
            omega
        exact ⟨moved.tiles, moved.size⟩

theorem Ok.freep_pos (ok : h.Ok base top F L) (pos : 0 < base) : h.freep ≠ 0 := by
  rcases List.mem_cons.mp ok.freep with same | mem
  · omega
  · have := (List.pairwise_cons.mp ok.sorted).1 _ mem
    omega

theorem Ok.add (ok : h.Ok base top F L) {a high : Nat} (pos : 0 < n) (above : top ≤ a)
    (fits : a + HEADER * n ≤ high) (last : high ≤ 2 ^ 31) (sys : S) :
    Heap.Ok base high
      { h with sys := sys, size := update h.size a n, obtained := h.obtained ++ [(a, n)] }
      F ((a, n) :: L) := by
  have low := ok.low.trans above
  have below (b) (mem : b ∈ F ++ L) : b.1 + HEADER * b.2 ≤ a := (ok.bounds mem).2.1.trans above
  have differ (b) (mem : b ∈ F ++ L) : b.1 ≠ a := by
    have := ok.bounds mem
    have := below b mem
    simp only [HEADER] at this
    omega
  refine ⟨ok.circle, ok.freep, ?_, ⟨?_, ?_⟩, ok.order, ?_, by omega, last⟩
  · exact (update_of_ne (by simp only [HEADER] at low; omega) _ _).trans ok.empty
  · have tiles := (ok.held.tiles.add pos below).perm (@List.perm_middle _ (a, n) F L).symm
    refine ⟨tiles.pos, tiles.apart, fun x => ?_⟩
    rw [← tiles.cover]
    simp [or_and_right, exists_or]
  · intro b mem
    rcases List.mem_cons.mp (List.perm_middle.mem_iff.mp mem) with rfl | old
    · exact update_self _ _ _
    · exact (update_of_ne (differ b old) _ _).trans (ok.held.size b old)
  · intro r mem
    rcases List.mem_append.mp mem with old | new
    · have := ok.within r old
      omega
    · cases List.mem_singleton.mp new
      exact ⟨low, fits⟩

theorem Ok.mono (ok : h.Ok base top F L) {high : Nat} (more : top ≤ high) (last : high ≤ 2 ^ 31)
    (sys : S) :
    ({ h with sys := sys } : Heap S).Ok base high F L :=
  ⟨ok.circle, ok.freep, ok.empty, ⟨ok.held.tiles, ok.held.size⟩, ok.order,
    fun r mem => ⟨(ok.within r mem).1, (ok.within r mem).2.trans more⟩, ok.low.trans more, last⟩

theorem Ok.perm {L' : List (Nat × Nat)} (ok : h.Ok base top F L) (same : L.Perm L') :
    h.Ok base top F L' :=
  ⟨ok.circle, ok.freep, ok.empty, ok.held.perm (same.append_left F), ok.order, ok.within,
    ok.low, ok.top⟩

theorem Ok.round (ok : h.Ok base top F L) (sbrk : S → Int → S × Option Nat) (n : Nat) {fuel : Nat}
    (enough : 2 ^ 31 < fuel) :
    (∃ q ∈ base :: F.map Prod.fst, n ≤ h.size (h.ptr q) ∧
      mallocLoop sbrk n fuel h h.freep (h.ptr h.freep) = some (h.take q (h.ptr q) n)) ∨
    ((∀ b ∈ F, b.2 < n) ∧ ∃ rest, fuel ≤ rest + 2 ^ 31 + 1 ∧
      mallocLoop sbrk n fuel h h.freep (h.ptr h.freep) = h.grow sbrk n rest) := by
  obtain ⟨ring, path, around, short⟩ := ok.around
  have out : h.freep ∉ ring :=
      (List.nodup_cons.mp (around.nodup_iff.mpr (ok.sorted.imp Nat.ne_of_lt))).1
  obtain ⟨rest, rfl⟩ : ∃ rest, fuel = rest + ring.length + 1 := ⟨fuel - ring.length - 1, by omega⟩
  rcases mallocLoop_round sbrk n path out rest with ⟨q, mem, found⟩ | ⟨none, grown⟩
  · exact .inl ⟨q, around.mem_iff.mp mem, found⟩
  · refine .inr ⟨fun b mem => ?_, rest, by omega, grown⟩
    have place : b.1 ∈ h.freep :: ring :=
      around.mem_iff.mpr (List.mem_cons_of_mem _ (List.mem_map_of_mem mem))
    have small := none b.1 ((List.perm_append_singleton _ _).mem_iff.mpr place)
    rwa [ok.held.size b (List.mem_append_left L mem)] at small

variable {top : S → Nat}

def Asked (sbrk : S → Int → S × Option Nat) (n : Nat) (h g : Heap S) (answer : Option Nat) : Prop :=
  sbrk h.sys ((HEADER * coreUnits n : Nat) : Int) = (g.sys, answer) ∧
    g.obtained = h.obtained ++ answer.toList.map (·, coreUnits n)

theorem coreUnits_spec (small : HEADER * n < 2 ^ 31) :
    n ≤ coreUnits n ∧ HEADER * coreUnits n < 2 ^ 31 ∧
    toInt (coreUnits n * HEADER % 2 ^ 32) = ((HEADER * coreUnits n : Nat) : Int) := by
  have fits : n ≤ coreUnits n ∧ HEADER * coreUnits n < 2 ^ 31 := by
    unfold coreUnits
    split
    · exact ⟨by omega, by simp only [HEADER]; omega⟩
    · exact ⟨Nat.le_refl n, small⟩
  refine ⟨fits.1, fits.2, ?_⟩
  rw [Nat.mul_comm, Nat.mod_eq_of_lt (by omega), toInt, if_pos fits.2]

theorem Ok.morecore (ok : h.Ok base (top h.sys) F L) (fresh : FreshSbrk sbrk top) (some : 0 < n)
    (small : HEADER * n < 2 ^ 31) :
    (∃ g, h.morecore sbrk n = .some (g, 0) ∧ g.Ok base (top g.sys) F L ∧ Asked sbrk n h g none) ∨
    ∃ g F' a, h.morecore sbrk n = .some (g, g.freep) ∧ g.Ok base (top g.sys) F' L ∧
      (∃ b ∈ F', n ≤ b.2) ∧
      Asked sbrk n h g (.some a) := by
  obtain ⟨more, fits, bytes⟩ := coreUnits_spec small
  have positive : 0 < ((HEADER * coreUnits n : Nat) : Int) := by simp only [HEADER]; omega
  have int : ((HEADER * coreUnits n : Nat) : Int) < 2 ^ 31 := by omega
  unfold Heap.morecore
  dsimp only
  rw [bytes]
  cases called : sbrk h.sys ((HEADER * coreUnits n : Nat) : Int) with
  | mk sys answer =>
    cases answer with
    | none =>
      have above := fresh.fails _ _ _ positive int called
      exact .inl ⟨_, rfl, ok.mono above (fresh.bound _) sys, called, (List.append_nil _).symm⟩
    | some a =>
      obtain ⟨above, last⟩ := fresh.fresh _ _ _ _ positive int called
      rw [Int.toNat_natCast] at last
      have added := ok.add (n := coreUnits n) (by omega) above last (fresh.bound _) sys
      obtain ⟨g, F', freed, good, same, obtained, b, mem, large⟩ := added.free
      have place : plus a 1 = a + HEADER := by
        have := fresh.bound sys
        exact Nat.mod_eq_of_lt (by simp only [HEADER] at *; omega)
      refine .inr ⟨g, F', a, ?_, ?_, ⟨b, mem, more.trans large⟩, ?_, obtained⟩
      · dsimp only
        rw [place, freed]
        rfl
      · rw [same]
        exact good
      · rw [called, same]

/-- malloc ends. It returns 0 if no free block is large enough and sbrk fails, or hands out a block
of n units. -/
theorem Ok.malloc (ok : h.Ok base (top h.sys) F L) (fresh : FreshSbrk sbrk top) (pos : 0 < base)
    (some : 0 < n)
    (small : HEADER * n < 2 ^ 31) :
    ∃ g r F', mallocLoop sbrk n TURNS h h.freep (h.ptr h.freep) = .some (g, r) ∧
      (r = 0 ∧ g.Ok base (top g.sys) F' L ∧ (∀ b ∈ F, b.2 < n) ∧ Asked sbrk n h g none ∨
      ∃ a, r = a + HEADER ∧ g.Ok base (top g.sys) F' ((a, n) :: L) ∧
        (g.sys = h.sys ∧ g.obtained = h.obtained ∧ (∃ b ∈ F, n ≤ b.2) ∨ ∃ c,
          Asked sbrk n h g (.some c))) := by
  rcases ok.round sbrk n (show 2 ^ 31 < TURNS by decide) with ⟨q, mem, enough, taken⟩
    | ⟨none, rest, turns, grown⟩
  · obtain ⟨F', a, pointer, good, sys, same, large⟩ := ok.take some mem enough
    exact ⟨_, _, F', taken, .inr ⟨a, pointer, sys.symm ▸ good, .inl ⟨sys, same, large⟩⟩⟩
  · rcases ok.morecore fresh some small with ⟨g, failed, good, asked⟩
      | ⟨g, F', c, got, good, ⟨b, mem, large⟩, asked⟩
    · exact ⟨g, 0, F, by rw [grown, Heap.grow, failed]; rfl, .inl ⟨rfl, good, none, asked⟩⟩
    · have again : h.grow sbrk n rest = mallocLoop sbrk n rest g g.freep (g.ptr g.freep) := by
        rw [Heap.grow, got]
        exact if_neg (good.freep_pos pos)
      have left : 2 ^ 31 < rest := by simp only [TURNS] at turns; omega
      rcases good.round sbrk n left with ⟨q, inner, enough, taken⟩ | ⟨none, -⟩
      · obtain ⟨F'', a, pointer, good, sys, same, -⟩ := good.take some inner enough
        refine ⟨_, _, F'', by rw [grown, again, taken], .inr
          ⟨a, pointer, sys.symm ▸ good, .inr ⟨c, ?_, ?_⟩⟩⟩
        · rw [sys]
          exact asked.1
        · rw [same]
          exact asked.2
      · exact absurd (none b mem) (by omega)

end Heap

end Malloc

/-- A program that uses the heap. The pointers that it has and the bytes it asked for are of the
proofs alone. -/
structure HeapUser (S : Type) where
  heap : Heap S
  live : List (Nat × Nat) := []

inductive HeapAct
  | malloc (nbytes : Nat)
  | free (ap : Nat)

namespace HeapUser
variable {S : Type}

def ended : Option (HeapUser S) → Except Unit (HeapUser S)
  | none => .error ()
  | some s => .ok s

def step (sbrk : S → Int → S × Option Nat) (base : Nat) (s : HeapUser S) :
    HeapAct → Except Unit (HeapUser S)
  | .malloc nbytes =>
    ended ((s.heap.malloc sbrk base nbytes).map fun r =>
      ⟨r.1, if r.2 = 0 then s.live else (r.2, nbytes) :: s.live⟩)
  | .free ap => ended ((s.heap.free ap).map fun h => ⟨h, s.live.eraseP (·.1 = ap)⟩)

/-- The units of the request fit into a positive int, and only a live pointer is freed. -/
def Allowed (s : HeapUser S) : HeapAct → Prop
  | .malloc nbytes => HEADER * ((nbytes + (HEADER - 1)) / HEADER + 1) < 2 ^ 31
  | .free ap => ∃ l ∈ s.live, l.1 = ap

instance (s : HeapUser S) : (a : HeapAct) → Decidable (s.Allowed a)
  | .malloc _ => inferInstanceAs (Decidable (_ < _))
  | .free ap => inferInstanceAs (Decidable (∃ l ∈ s.live, l.1 = ap))

/-- A heap that malloc has not used yet, in a program whose base is below its break. -/
def Fresh (top : S → Nat) (base : Nat) (s : HeapUser S) : Prop :=
  base + HEADER ≤ top s.heap.sys ∧ s.heap.freep = 0 ∧ s.heap.obtained = [] ∧ s.live = []

def block (s : HeapUser S) (l : Nat × Nat) : Nat × Nat := (l.1 - HEADER, s.heap.size (l.1 - HEADER))

structure Ok (top : S → Nat) (base : Nat) (s : HeapUser S) (F : List (Nat × Nat)) : Prop where
  heap : s.heap.Ok base (top s.heap.sys) F (s.live.map s.block)
  large : ∀ l ∈ s.live, l.2 + HEADER ≤ HEADER * s.heap.size (l.1 - HEADER) ∧ HEADER ≤ l.1

end HeapUser

section User
variable {S : Type} {sbrk : S → Int → S × Option Nat} {top : S → Nat} {base : Nat}
  {s t : HeapUser S}

namespace HeapUser

theorem step_malloc {nbytes r : Nat} {g : Heap S}
    (called : s.heap.malloc sbrk base nbytes = some (g, r)) :
    s.step sbrk base (.malloc nbytes) =
      .ok ⟨g, if r = 0 then s.live else (r, nbytes) :: s.live⟩ := by
  rw [step, called]
  rfl

theorem step_free {ap : Nat} {g : Heap S} (called : s.heap.free ap = some g) :
    s.step sbrk base (.free ap) = .ok ⟨g, s.live.eraseP (·.1 = ap)⟩ := by
  rw [step, called]
  rfl

def Good (top : S → Nat) (base : Nat) (s : HeapUser S) : Prop :=
  s.Fresh top base ∨ ∃ F, s.Ok top base F

theorem Good.large (good : s.Good top base) :
    ∀ l ∈ s.live, l.2 + HEADER ≤ HEADER * s.heap.size (l.1 - HEADER) ∧ HEADER ≤ l.1 := by
  rcases good with ⟨-, -, -, none⟩ | ⟨F, ok⟩
  · simp [none]
  · exact ok.large

theorem Good.start (good : s.Good top base) (bound : top s.heap.sys ≤ 2 ^ 31) (pos : 0 < base) :
    ∃ F, (s.heap.start base).Ok base (top (s.heap.start base).sys) F (s.live.map s.block) := by
  rcases good with ⟨low, unused, none, nothing⟩ | ⟨F, ok⟩
  · refine ⟨[], ?_⟩
    rw [nothing, Heap.start, if_pos unused]
    exact ⟨update_self _ _ _, List.mem_cons_self, update_self _ _ _,
      ⟨⟨by simp, List.Pairwise.nil, by simp [none]⟩, by simp⟩, List.IsChain.singleton _,
        by simp [none], low, bound⟩
  · refine ⟨F, ?_⟩
    rw [Heap.start, if_neg (ok.heap.freep_pos pos)]
    exact ok.heap

theorem Good.keep (good : s.Good top base) {h : Heap S} {F : List (Nat × Nat)}
    (L live : List (Nat × Nat))
    (sub : ∀ l ∈ live, l ∈ s.live) (ok : h.Ok base (top h.sys) F (L ++ live.map s.block)) :
    live.map (HeapUser.block ⟨h, live⟩) = live.map s.block ∧
      ∀ l ∈ live, l.2 + HEADER ≤ HEADER * h.size (l.1 - HEADER) ∧ HEADER ≤ l.1 := by
  have same (l) (mem : l ∈ live) : h.size (l.1 - HEADER) = s.heap.size (l.1 - HEADER) :=
    ok.held.size (s.block l)
      (List.mem_append_right _ (List.mem_append_right _ (List.mem_map_of_mem mem)))
  refine ⟨List.map_congr_left fun l mem => by rw [block, block, same l mem], fun l mem => ?_⟩
  rw [same l mem]
  exact good.large l (sub l mem)

theorem Good.malloc (good : s.Good top base) (fresh : FreshSbrk sbrk top) (pos : 0 < base)
    {nbytes : Nat}
    (small : s.Allowed (.malloc nbytes)) : ∃ t, s.step sbrk base (.malloc nbytes) = .ok t ∧
      t.Good top base := by
  obtain ⟨F, ok⟩ := good.start (fresh.bound _) pos
  obtain ⟨n, count, fits, room⟩ : ∃ n, Heap.units nbytes = n ∧ HEADER * n < 2 ^ 31 ∧
      nbytes + HEADER ≤ HEADER * n := by
    refine ⟨_, rfl, ?_⟩
    simp only [Allowed, Heap.units, HEADER] at small ⊢
    omega
  have some : 0 < n := by rw [← count]; exact Nat.succ_pos _
  obtain ⟨g, r, F', done, result⟩ := ok.malloc fresh pos some fits
  have called : s.heap.malloc sbrk base nbytes = .some (g, r) := by
    simp only [Heap.malloc, count, done]
  rw [step_malloc called]
  refine ⟨_, rfl, .inr ⟨F', ?_⟩⟩
  rcases result with ⟨rfl, ok, -⟩ | ⟨a, rfl, ok, -⟩
  · obtain ⟨blocks, large⟩ := good.keep [] s.live (fun l mem => mem) ok
    rw [if_pos rfl]
    exact ⟨by rw [blocks]; exact ok, large⟩
  · obtain ⟨blocks, large⟩ := good.keep [(a, n)] s.live (fun l mem => mem) ok
    have size : g.size a = n := ok.held.size (a, n) (List.mem_append_right _ List.mem_cons_self)
    rw [if_neg (by simp)]
    refine ⟨?_, fun l mem => ?_⟩
    · have first : HeapUser.block ⟨g, (a + HEADER, nbytes) :: s.live⟩
        (a + HEADER, nbytes) = (a, n) := by
        simp only [block, Nat.add_sub_cancel, size]
      rw [List.map_cons, first]
      exact blocks ▸ ok
    · rcases List.mem_cons.mp mem with rfl | mem
      · simp only [Nat.add_sub_cancel, size]
        exact ⟨room, Nat.le_add_left _ _⟩
      · exact large l mem

theorem Good.free (good : s.Good top base) {ap : Nat} (live : s.Allowed (.free ap)) :
    ∃ t, s.step sbrk base (.free ap) = .ok t ∧ t.Good top base ∧ t.heap.sys = s.heap.sys ∧
      t.heap.obtained = s.heap.obtained := by
  obtain ⟨l, mem, rfl⟩ := live
  obtain ⟨F, ok⟩ : ∃ F, s.Ok top base F := by
    refine good.resolve_left fun fresh => ?_
    rw [fresh.2.2.2] at mem
    cases mem
  obtain ⟨b, front, back, -, same, whole, erased⟩ :=
    List.exists_of_eraseP (p := (·.1 = l.1)) mem (by simp)
  have low : HEADER ≤ b.1 := (ok.large b (by simp [whole])).2
  have place : b.1 - HEADER + HEADER = l.1 := by rw [Nat.sub_add_cancel low]; simpa using same
  have order : (s.live.map s.block).Perm (s.block b :: (front ++ back).map s.block) := by
    rw [whole, List.map_append, List.map_append]
    exact List.perm_middle
  obtain ⟨g, F', freed, heap, sys, regions, -⟩ := (ok.heap.perm order).free
  rw [place] at freed
  rw [← sys] at heap
  rw [step_free freed, erased]
  obtain ⟨blocks, large⟩ := good.keep [] (front ++ back) (fun l mem => by
    rw [whole]
    exact List.perm_middle.mem_iff.mpr (List.mem_cons_of_mem b mem)) heap
  exact ⟨_, rfl, .inr ⟨F', by rw [blocks]; exact heap, large⟩, sys, regions⟩

theorem Good.step (good : s.Good top base) (fresh : FreshSbrk sbrk top) (pos : 0 < base)
    {a : HeapAct} (allowed : s.Allowed a) : ∃ t, s.step sbrk base a = .ok t ∧ t.Good top base := by
  cases a with
  | malloc nbytes => exact good.malloc fresh pos allowed
  | free ap =>
    obtain ⟨t, done, good, -⟩ := good.free allowed
    exact ⟨t, done, good⟩

theorem Good.of_reaches (fresh : FreshSbrk sbrk top) (pos : 0 < base)
    (run : Reaches (HeapUser.step sbrk base) HeapUser.Allowed (HeapUser.Fresh top base) s) :
      s.Good top base := by
  refine run.invariant (HeapUser.Good top base)
    (fun s start => .inl start) fun s a t good allowed done => ?_
  obtain ⟨u, same, next⟩ := good.step fresh pos allowed
  cases done.symm.trans same
  exact next

end HeapUser

end User

/-- In every run the free list is a circle in the order of the addresses with gaps between its
blocks, the free and the live blocks are disjoint and are together what sbrk gave, a live block has
the bytes that were asked for, and the next call ends. -/
theorem user_heap_in_order {S : Type} {sbrk : S → Int → S × Option Nat} {top : S → Nat}
    (fresh : FreshSbrk sbrk top) {base : Nat} (pos : 0 < base) {s : HeapUser S}
    (run : Reaches (HeapUser.step sbrk base) HeapUser.Allowed (HeapUser.Fresh top base) s) :
    ∃ F : List (Nat × Nat),
      (if s.heap.freep = 0 then F = [] else
        Lib.Path s.heap.ptr base (F.map Prod.fst) base ∧ s.heap.freep ∈ base :: F.map Prod.fst ∧
          ∀ b ∈ (base, 0) :: F, s.heap.size b.1 = b.2) ∧
      ((base, 0) :: F).Pairwise Beneath ∧
      Tiles HEADER (F ++ s.live.map s.block) (fun x => ∃ r ∈ s.heap.obtained, Inside HEADER r x) ∧
      (∀ l ∈ s.live, l.2 + HEADER ≤ HEADER * (s.block l).2) ∧
      ∀ a, s.Allowed a → ∃ t, s.step sbrk base a = .ok t := by
  have good := HeapUser.Good.of_reaches fresh pos run
  have large (l) (mem : l ∈ s.live) := (good.large l mem).1
  have next (a) (allowed : s.Allowed a) : ∃ t, s.step sbrk base a = .ok t := by
    obtain ⟨t, done, -⟩ := good.step fresh pos allowed
    exact ⟨t, done⟩
  rcases good with ⟨-, unused, none, nothing⟩ | ⟨F, ok⟩
  · refine ⟨[], by rw [if_pos unused], List.pairwise_singleton _ _, ?_, large, next⟩
    rw [nothing, none]
    exact ⟨by simp, List.Pairwise.nil, by simp⟩
  · refine ⟨F, ?_, List.isChain_iff_pairwise.mp ok.heap.order, ok.heap.held.tiles, large, next⟩
    rw [if_neg (ok.heap.freep_pos pos)]
    exact ⟨ok.heap.circle, ok.heap.freep, fun b => ok.heap.size_node⟩

def growingBreak (s : Nat) (n : Int) : Nat × Option Nat :=
  if s + n.toNat ≤ 2 ^ 31 then (s + n.toNat, some s) else (s, none)

theorem growingBreak_fresh : FreshSbrk growingBreak (fun s => min s (2 ^ 31)) := by
  refine ⟨fun s n t _ _ failed => ?_, fun s n t a some _ done => ?_, fun s => Nat.min_le_right _ _⟩
  · unfold growingBreak at failed
    split at failed
    · cases failed
    · cases failed
      exact Nat.le_refl _
  · unfold growingBreak at done
    split at done
    · cases done
      omega
    · cases done

/-- Three blocks of two regions, of which the first and the second are freed. -/
theorem user_heap_of_three_blocks : ∃ s : HeapUser Nat, s.live = [(36872, 40000)] ∧
    s.heap.obtained.length = 2 ∧
    ∃ F : List (Nat × Nat), Tiles HEADER (F ++ s.live.map s.block)
      (fun x => ∃ r ∈ s.heap.obtained, Inside HEADER r x) := by
  have start : Reaches (HeapUser.step growingBreak 64) HeapUser.Allowed
      (HeapUser.Fresh (fun s => min s (2 ^ 31)) 64)
      ⟨{ ptr := fun _ => 0, size := fun _ => 0, sys := 4096 }, []⟩ :=
    .start ⟨by decide, rfl, rfl, rfl⟩
  obtain ⟨s, run, test⟩ := start.exists_of_follow
    [.malloc 10, .malloc 32000, .malloc 40000, .free 36848, .free 4840]
    (fun s => s.live = [(36872, 40000)] ∧ s.heap.obtained.length = 2) (by decide +kernel)
  obtain ⟨live, regions⟩ := of_decide_eq_true test
  obtain ⟨F, -, -, tiles, -⟩ := user_heap_in_order growingBreak_fresh (by decide) run
  exact ⟨s, live, regions, F, tiles⟩

end MmapXv6
