import MmapXv6.User.Heap
import MmapXv6.Vm.Growproc
import MmapXv6.Vm.Size

/-! malloc on the kernel's sys_sbrk and growproc. A uint that sbrk takes for a negative int
shrinks the process, or does nothing and still succeeds, and a request whose rounding wraps
around is served with a block of one unit. -/
namespace MmapXv6

open Function (update update_of_ne update_self)
open Lib (Inside Reaches)

section Kernel
variable {s t : Vm} {n r : Int}

theorem growproc_size (low : s.proc.sz ≤ KERNBASE) (int : -2 ^ 31 ≤ n ∧ n < 2 ^ 31)
    (done : growproc s n = .ok (r, t)) : r = -1 ∧ t.proc.sz = s.proc.sz ∨
      r = 0 ∧ (0 < n → t.proc.sz = s.proc.sz + n ∧ t.proc.sz < KERNBASE) ∧
        (n ≤ 0 → t.proc.sz ≤ s.proc.sz) := by
  rcases Int.lt_trichotomy 0 n with pos | rfl | neg
  · have size := brk_inside (s := s) (n := n) (by omega) (by simp only [KERNBASE] at low; omega)
    rw [growproc_grows pos] at done
    obtain ⟨⟨sz, u⟩, grown, eq⟩ := Lib.bind_ok.mp done
    dsimp only at eq
    split at eq
    · cases eq
      exact .inl ⟨rfl, rfl⟩
    · rename_i served
      cases eq
      refine .inr ⟨rfl, fun _ => ?_, fun no => by omega⟩
      rcases allocuvm_cases grown with ⟨-, zero, -⟩ | ⟨less, -⟩ | ⟨-, user, loop⟩
      · exact absurd zero served
      · omega
      · obtain rfl := loop.result.resolve_left served
        exact ⟨size, user⟩
  · cases done
    exact .inr ⟨rfl, fun no => absurd no (by omega), fun _ => Nat.le_refl _⟩
  · rcases Int.lt_or_le (s.proc.sz + n) 0 with below | inside
    · rw [growproc_below int.1 low below] at done
      split at done
      · cases done
        exact .inl ⟨rfl, rfl⟩
      · cases done
        exact .inr ⟨rfl, fun no => by omega, fun _ => Nat.le_refl _⟩
    · have size := brk_inside (s := s) (n := n) inside (by simp only [KERNBASE] at low; omega)
      obtain ⟨clears, stops⟩ := growproc_shrinks neg inside low
      by_cases all : AllFreeable s.uvm (endPage (brk s.proc n)) (endPage s.proc.sz)
      · obtain ⟨u', -, shrunk⟩ := clears all
        rw [shrunk] at done
        split at done
        · cases done
          exact .inl ⟨rfl, rfl⟩
        · cases done
          exact .inr ⟨rfl, fun no => by omega, fun _ => show brk s.proc n ≤ s.proc.sz by omega⟩
      · rw [stops all] at done
        cases done

end Kernel

/-- A process whose size is at most KERNBASE. The regions that it got by growing are of the proofs
alone. -/
structure Brk where
  vm : Vm
  given : List (Nat × Nat) := []
  low : vm.proc.sz ≤ KERNBASE

/-- After a panic nothing returns any more. -/
def sysSbrk : Except Panic Brk → Int → Except Panic Brk × Option Nat
  | .error e, _ => (.error e, none)
  | .ok b, n =>
    match done : growproc b.vm n with
    | .error e => (.error e, none)
    | .ok (r, vm) =>
      if r < 0 then (.ok ⟨vm, b.given, growproc_bounded b.low done⟩, none)
      else (.ok ⟨vm, if 0 < n then b.given ++ [(b.vm.proc.sz, n.toNat)] else b.given,
        growproc_bounded b.low done⟩, some b.vm.proc.sz)

namespace Brk

def top : Except Panic Brk → Nat
  | .error _ => KERNBASE
  | .ok b => b.vm.proc.sz

def Given : Except Panic Brk → Nat → Prop
  | .error _, _ => False
  | .ok b, x => x < b.vm.proc.sz ∧ ∃ r ∈ b.given, r.1 ≤ x ∧ x < r.1 + r.2

def Refused (b : Brk) (n : Int) : Prop := ∀ vm, growproc b.vm n ≠ .ok (0, vm)

end Brk

section Sbrk
variable {b : Brk} {n : Int} {t : Except Panic Brk}

theorem sysSbrk_none (int : -2 ^ 31 ≤ n ∧ n < 2 ^ 31) (called : sysSbrk (.ok b) n = (t, none)) :
    b.Refused n ∧ ((∃ e, t = .error e) ∨ ∃ c : Brk, t = .ok c ∧ c.given = b.given ∧
      c.vm.proc.sz = b.vm.proc.sz) := by
  simp only [sysSbrk] at called
  split at called
  · rename_i failed
    cases called
    exact ⟨fun vm done => (nomatch failed.symm.trans done), .inl ⟨_, rfl⟩⟩
  · rename_i r vm done
    split at called
    · rename_i minus
      cases called
      rcases growproc_size b.low int done with ⟨rfl, size⟩ | ⟨rfl, -⟩
      · exact ⟨fun vm again => (nomatch done.symm.trans again), .inr ⟨_, rfl, rfl, size⟩⟩
      · exact absurd minus (by decide)
    · cases called

theorem sysSbrk_some (int : -2 ^ 31 ≤ n ∧ n < 2 ^ 31) {a : Nat}
    (called : sysSbrk (.ok b) n = (t, some a)) :
    a = b.vm.proc.sz ∧ ¬ b.Refused n ∧ ∃ c : Brk, t = .ok c ∧ (n ≤ 0 → c.vm.proc.sz ≤ a) ∧
      (0 < n → c.given = b.given ++ [(a, n.toNat)] ∧ c.vm.proc.sz = a + n ∧
        c.vm.proc.sz < KERNBASE) := by
  simp only [sysSbrk] at called
  split at called
  · cases called
  · rename_i r vm done
    split at called
    · cases called
    · rename_i zero
      cases called
      rcases growproc_size b.low int done with ⟨rfl, -⟩ | ⟨rfl, grows, shrinks⟩
      · exact absurd (by decide) zero
      · refine ⟨rfl, fun refused => refused vm done, _, rfl, shrinks, fun pos => ⟨?_, grows pos⟩⟩
        simp only [if_pos pos]

theorem sysSbrk_fresh : FreshSbrk sysSbrk Brk.top := by
  refine ⟨fun s n t pos int called => ?_, fun s n t a pos int called => ?_, fun s => ?_⟩
  · cases s with
    | error e =>
      cases called
      exact Nat.le_refl _
    | ok b =>
      rcases (sysSbrk_none ⟨by omega, int⟩ called).2 with ⟨e, rfl⟩ | ⟨c, rfl, -, same⟩
      · exact b.low
      · exact Nat.le_of_eq same.symm
  · cases s with
    | error e => cases called
    | ok b =>
      obtain ⟨rfl, -, c, rfl, -, grows⟩ := sysSbrk_some ⟨by omega, int⟩ called
      obtain ⟨-, size, -⟩ := grows pos
      exact ⟨Nat.le_refl _, by simp only [Brk.top]; omega⟩
  · cases s with
    | error e => exact Nat.le_of_eq (by decide : KERNBASE = 2 ^ 31)
    | ok b =>
      have := b.low
      simp only [Brk.top, KERNBASE] at this ⊢
      omega

end Sbrk

section Overpromise
variable {S : Type} {base top : Nat} {h : Heap S} {F L : List (Nat × Nat)} {n a : Nat}
  {sbrk : S → Int → S × Option Nat} {sys : S}

namespace Heap

theorem joinNext_last {q : Nat} (last : h.ptr q = base) (empty : h.size base = 0)
    (units : h.size a < 2 ^ 32) :
    ∃ ptr, (h.joinNext a q).ptr = ptr ∧ (h.joinNext a q).size = h.size ∧
      (∀ x, x ≠ a → ptr x = h.ptr x) ∧
      (ptr a = base ∨ ptr a = h.ptr base) := by
  unfold joinNext
  rw [last, empty, Nat.add_zero, Nat.mod_eq_of_lt units, Function.update_eq_self]
  split
  · exact ⟨_, rfl, rfl, fun x other => update_of_ne other _ _, .inr (update_self _ _ _)⟩
  · exact ⟨_, rfl, rfl, fun x other => update_of_ne other _ _, .inl (update_self _ _ _)⟩

theorem join_sys {q : Nat} : ((h.joinNext a q).joinPrev a q).sys = h.sys := by
  have next : (h.joinNext a q).sys = h.sys := by
    unfold joinNext
    split <;> rfl
  unfold joinPrev
  split
  · exact next
  · exact next

theorem Ok.node_small (ok : h.Ok base top F L) {x : Nat} (mem : x ∈ ((base, 0) :: F).map Prod.fst) :
    h.size x < 2 ^ 28 := by
  obtain ⟨b, inner, rfl⟩ := List.mem_map.mp mem
  rw [ok.size_node inner]
  rcases List.mem_cons.mp inner with rfl | inner
  · exact Nat.two_pow_pos 28
  · have := ok.bounds (List.mem_append_left L inner)
    have := ok.top
    simp only [HEADER] at *
    omega

theorem Ok.free_above (ok : h.Ok base top F L) (above : top ≤ a) (word : a ≤ 2 ^ 31)
    (units : n ≤ 2 ^ 29)
    {g : Heap S} (ptr : g.ptr = h.ptr) (freep : g.freep = h.freep)
    (size : g.size = update h.size a n) :
    ∃ f q, g.free (a + HEADER) = some f ∧ f.sys = g.sys ∧ f.freep = q ∧ base ≤ q ∧
      (f.ptr q = a ∧ f.size a = n ∨
      ∃ xs m, Lib.Path f.ptr q xs q ∧ xs.length ≤ 2 ^ 31 ∧ q ∉ xs ∧ (∀ x ∈ xs, f.size x < 2 ^ 28) ∧
        0 < m ∧ f.size q = m + n ∧
        q + HEADER * m = a) := by
  have low := ok.low
  have top := ok.top
  have below (b) (mem : b ∈ F) : b.1 < a := by
    have := ok.bounds (List.mem_append_left L mem)
    simp only [HEADER] at this
    omega
  obtain ⟨front, q, back, split, result, before, beyond⟩ := ok.loop_ends (show base < a by
    simp only [HEADER] at low
    omega) (fun b mem => Nat.ne_of_lt (below b mem)) ptr freep
  have node {x : Nat} (mem : x ∈ ((base, 0) :: F).map Prod.fst) : x < a ∧ h.size x < 2 ^ 28 := by
    refine ⟨?_, ok.node_small mem⟩
    obtain ⟨b, inner, rfl⟩ := List.mem_map.mp mem
    rcases List.mem_cons.mp inner with rfl | inner
    · simp only [HEADER] at low
      omega
    · exact below b inner
  obtain rfl : back = [] := by
    cases back with
    | nil => rfl
    | cons y back =>
      have inner : y.1 ∈ ((base, 0) :: F).map Prod.fst := by simp [split]
      exact absurd (node inner).1 (Nat.not_lt.mpr (Nat.le_of_lt (beyond y rfl)))
  obtain ⟨last, visits⟩ := ok.ptr_of_split split
  have member : q ∈ (base, 0) :: F := by simp [split]
  have mine : g.size q.1 = q.2 := by
    rw [size, update_of_ne (Nat.ne_of_lt before), ok.size_node member]
  have own : g.size a = n := by rw [size, update_self]
  have empty : g.size base = 0 := by
    rw [size, update_of_ne (by simp only [HEADER] at low; omega), ok.empty]
  obtain ⟨ptr', join, sizes, others, next⟩ := joinNext_last (a := a)
      (show g.ptr q.1 = base from ptr ▸ last) empty
    (by rw [own]; omega)
  have freed : g.free (a + HEADER) =
      some { (g.joinNext a q.1).joinPrev a q.1 with freep := q.1 } := by
    have back : (a + HEADER + (2 ^ 32 - HEADER)) % 2 ^ 32 = a := by simp only [HEADER]; omega
    simp only [Heap.free, back, result, Option.map_some]
  have least : base ≤ q.1 := by
    rcases List.mem_cons.mp member with rfl | inner
    · exact Nat.le_refl _
    · exact Nat.le_of_lt ((List.pairwise_cons.mp ok.sorted).1 _ (List.mem_map_of_mem inner))
  refine ⟨_, q.1, freed, join_sys, rfl, least, ?_⟩
  have ends : plus q.1 q.2 = q.1 + HEADER * q.2 := by
    have := (node (List.mem_map_of_mem (f := Prod.fst) member)).2
    rw [ok.size_node member] at this
    exact Nat.mod_eq_of_lt (by simp only [HEADER]; omega)
  by_cases touch : q.1 + HEADER * q.2 = a
  · right
    obtain ⟨inner, rfl⟩ : ∃ inner, front = (base, 0) :: inner := by
      cases front with
      | nil =>
        cases split
        simp only at touch before
        omega
      | cons x front => exact ⟨front, by cases split; rfl⟩
    have around (x) (mem : x ∈ base :: inner.map Prod.fst) :
        x ≠ q.1 ∧ x ≠ a ∧ h.size x < 2 ^ 28 := by
      have := ok.front_lt split mem
      have := node (x := x) (by rw [split, List.map_append]; exact List.mem_append_left _ mem)
      omega
    have sum : (q.2 + n) % 2 ^ 32 = q.2 + n := by
      have := (node (List.mem_map_of_mem (f := Prod.fst) member)).2
      rw [ok.size_node member] at this
      exact Nat.mod_eq_of_lt (by omega)
    simp only [joinPrev, sizes, mine, own, sum, join, if_pos (ends.trans touch)]
    have kept (x) (mem : x ∈ base :: inner.map Prod.fst) :
        update ptr' q.1 (ptr' a) x = h.ptr x := by
      rw [update_of_ne (around x mem).1, others x (around x mem).2.1, ptr]
    have small (x) (mem : x ∈ base :: inner.map Prod.fst) :
        update g.size q.1 (q.2 + n) x < 2 ^ 28 := by
      rw [update_of_ne (around x mem).1, size, update_of_ne (around x mem).2.1]
      exact (around x mem).2.2
    have path : Lib.Path h.ptr base (inner.map Prod.fst) q.1 := visits
    have pos : 0 < q.2 := by simp only [HEADER] at touch; omega
    have short : inner.length < 2 ^ 31 := by
      have count := congrArg List.length split
      have := ok.short
      simp only [List.length_cons, List.length_append, List.length_nil] at count
      omega
    rcases next with first | first
    · refine ⟨base :: inner.map Prod.fst, q.2, ⟨(update_self _ _ _).trans first, path.congr kept⟩,
        by simp only [List.length_cons, List.length_map]; omega,
        fun mem => ?_, small, pos, update_self _ _ _, touch⟩
      exact (around _ mem).1 rfl
    · refine ⟨inner.map Prod.fst, q.2,
        path.restart ((update_self _ _ _).trans (ptr ▸ first)) fun x mem =>
        kept x (List.mem_cons_of_mem _ mem), by simpa using Nat.le_of_lt short, fun mem => ?_,
          fun x mem => small x (List.mem_cons_of_mem _ mem), pos,
        update_self _ _ _, touch⟩
      exact (around _ (List.mem_cons_of_mem _ mem)).1 rfl
  · left
    simp only [joinPrev, sizes, mine, if_neg (ends ▸ touch)]
    exact ⟨update_self _ _ _, own⟩

/-- malloc trusts an answer of sbrk that gives no memory: it returns a pointer above all blocks. -/
theorem Ok.overpromise (ok : h.Ok base top F L) (pos : 0 < base) (big : 2 ^ 28 ≤ n)
    (units : n ≤ 2 ^ 29) (above : top ≤ a) (word : a ≤ 2 ^ 31) (answer : sbrk h.sys
      (toInt (HEADER * n % 2 ^ 32)) = (sys, some a)) :
    ∃ f, mallocLoop sbrk n TURNS h h.freep (h.ptr h.freep) = some (f, a + HEADER) ∧
      f.sys = sys := by
  have place (x : Nat) (word : x ≤ 2 ^ 31) : plus x 1 = x + HEADER :=
      Nat.mod_eq_of_lt (by simp only [HEADER]; omega)
  rcases ok.round sbrk n (show 2 ^ 31 < TURNS by decide) with ⟨q, mem, enough, -⟩
    | ⟨-, rest, turns, grown⟩
  · have inner := (List.perm_append_singleton base _).mem_iff.mp (ok.circle.maps mem)
    exact absurd (ok.node_small inner) (by omega)
  · obtain ⟨f, q, freed, same, freep, least, result⟩ := ok.free_above above word units
      (g := { h with sys := sys, size := update h.size a n, obtained := h.obtained ++ [(a, n)] })
        rfl rfl rfl
    have core : h.morecore sbrk n = some (f, q) := by
      have nu : coreUnits n = n := if_neg (by omega)
      simp only [Heap.morecore, nu, Nat.mul_comm n, answer, place a word, freed,
        Option.map_some, freep]
    have again : mallocLoop sbrk n TURNS h h.freep (h.ptr h.freep) =
        mallocLoop sbrk n rest f q (f.ptr q) := by
      rw [grown, Heap.grow, core]
      exact if_neg (by omega)
    simp only [TURNS] at turns
    rw [again]
    rcases result with ⟨first, size⟩ | ⟨xs, m, path, short, out, small, some, size, ends⟩
    · obtain ⟨k, rfl⟩ := Nat.exists_eq_succ_of_ne_zero (show rest ≠ 0 by omega)
      rw [mallocLoop, first, if_pos (Nat.le_of_eq size.symm), Heap.take, if_pos size, place a word]
      exact ⟨_, rfl, same⟩
    · obtain ⟨k, rfl⟩ : ∃ k, rest = k + xs.length + 1 := ⟨rest - xs.length - 1, by omega⟩
      subst freep
      rcases mallocLoop_round sbrk n path out k with ⟨p, mem, enough, taken⟩ | ⟨none, -⟩
      · -- only the joined block is large enough
        have next : f.ptr p = f.freep := by
          rcases List.mem_append.mp (path.maps mem) with inner | last
          · exact absurd (small _ inner) (by omega)
          · exact List.mem_singleton.mp last
        have header : plus f.freep m = a := by
          rw [← ends]
          exact Nat.mod_eq_of_lt (by omega)
        rw [taken, next, Heap.take, if_neg (by omega), size, Nat.add_sub_cancel, header]
        dsimp only
        rw [place a word]
        exact ⟨_, rfl, same⟩
      · exact absurd (none f.freep (by simp)) (by omega)

theorem Ok.refused (ok : h.Ok base top F L) (big : 2 ^ 28 ≤ n)
    (answer : sbrk h.sys (toInt (HEADER * n % 2 ^ 32)) = (sys, none)) :
    mallocLoop sbrk n TURNS h h.freep (h.ptr h.freep) = some ({ h with sys := sys }, 0) := by
  rcases ok.round sbrk n (show 2 ^ 31 < TURNS by decide) with ⟨q, mem, enough, -⟩ |
      ⟨-, rest, -, grown⟩
  · have inner := (List.perm_append_singleton base _).mem_iff.mp (ok.circle.maps mem)
    exact absurd (ok.node_small inner) (by omega)
  · have nu : coreUnits n = n := if_neg (by omega)
    rw [grown, Heap.grow]
    simp only [Heap.morecore, nu, Nat.mul_comm n, answer, if_pos]

end Heap

end Overpromise

/-- A pointer that malloc may return: 0, or one to bytes that the process has got. -/
def Honest (s : Except Panic Brk) (r nbytes : Nat) : Prop :=
  r = 0 ∨ ∀ i < nbytes, Brk.Given s ((r + i) % 2 ^ 32)

/-- The bytes of a request with its header, as the rounding of malloc means them. -/
def requested (nbytes : Nat) : Nat := HEADER * ((nbytes + (HEADER - 1)) / HEADER + 1)

/-- The requests that malloc serves or refuses: those below 2^31 bytes, and those for which the sbrk
it calls happens to fail. -/
def Brk.Serves (b : Brk) (base : Nat) (h : Heap (Except Panic Brk)) (nbytes : Nat) : Prop :=
  if nbytes + (HEADER - 1) < 2 ^ 32 then
    requested nbytes < 2 ^ 31 ∨ b.vm.proc.sz + requested nbytes = 2 ^ 32 ∨
      2 ^ 32 < b.vm.proc.sz + requested nbytes ∧ ¬ AllFreeable b.vm.uvm
        (endPage (b.vm.proc.sz + requested nbytes - 2 ^ 32)) (endPage b.vm.proc.sz)
  else (h.freep = 0 ∨ h.ptr base = base) ∧ b.Refused 32768

section Honest
variable {b : Brk} {base nbytes n : Nat} {h g : Heap (Except Panic Brk)} {F L : List (Nat × Nat)}

theorem refused_iff {m : Nat} (some : 0 < b.vm.proc.sz) (word : m ≤ 2 ^ 31) :
    b.Refused (-m) ↔ b.vm.proc.sz = m ∨ m < b.vm.proc.sz ∧ ¬ AllFreeable b.vm.uvm
      (endPage (b.vm.proc.sz - m)) (endPage b.vm.proc.sz) := by
  have low := b.low
  rcases Nat.eq_zero_or_pos m with rfl | pos
  · refine iff_of_false (fun refused => refused b.vm rfl) ?_
    rintro (zero | ⟨-, stuck⟩)
    · omega
    · exact stuck fun v e from_ below => absurd (Nat.lt_of_le_of_lt from_ below) (Nat.lt_irrefl _)
  have neg : (-m : Int) < 0 := by omega
  rcases Nat.lt_or_ge b.vm.proc.sz m with less | inside
  · have below := growproc_below (s := b.vm) (n := -m) (by omega) low (by omega)
    rw [if_neg (by omega)] at below
    exact iff_of_false (fun refused => refused _ below) (by omega)
  · have size := brk_inside (s := b.vm) (n := -m) (by omega) (by simp only [KERNBASE] at low; omega)
    obtain ⟨clears, stops⟩ := growproc_shrinks (s := b.vm) neg (by omega) low
    have new : brk b.vm.proc (-m) = b.vm.proc.sz - m := by omega
    rw [new] at clears stops
    by_cases all : AllFreeable b.vm.uvm (endPage (b.vm.proc.sz - m)) (endPage b.vm.proc.sz)
    · obtain ⟨u', -, done⟩ := clears all
      constructor
      · intro refused
        refine .inl (by_contra fun differ => refused (b.vm.resize (b.vm.proc.sz - m) u') ?_)
        rw [done, if_neg (by omega)]
      · rintro (same | ⟨-, stuck⟩)
        · intro vm again
          rw [done, if_pos (by omega)] at again
          cases again
        · exact absurd all stuck
    · refine iff_of_true (fun vm done => ?_) ?_
      · rw [stops all] at done
        cases done
      · rcases Nat.eq_or_lt_of_le inside with same | more
        · exact .inl same.symm
        · exact .inr ⟨more, all⟩

theorem toInt_wrap (exact : nbytes + (HEADER - 1) < 2 ^ 32) (large : ¬ requested nbytes < 2 ^ 31) :
    Heap.toInt (requested nbytes % 2 ^ 32) = -((2 ^ 32 - requested nbytes : Nat) : Int) := by
  have most : requested nbytes ≤ 2 ^ 32 := by
    simp only [requested, HEADER] at exact ⊢
    omega
  unfold Heap.toInt
  split <;> omega

theorem refused_wrap (some : 0 < b.vm.proc.sz) (exact : nbytes + (HEADER - 1) < 2 ^ 32)
    (large : ¬ requested nbytes < 2 ^ 31) :
    b.Refused (-((2 ^ 32 - requested nbytes : Nat) : Int)) ↔
      b.vm.proc.sz + requested nbytes = 2 ^ 32 ∨
      2 ^ 32 < b.vm.proc.sz + requested nbytes ∧ ¬ AllFreeable b.vm.uvm
        (endPage (b.vm.proc.sz + requested nbytes - 2 ^ 32)) (endPage b.vm.proc.sz) := by
  have most : requested nbytes ≤ 2 ^ 32 := by
    simp only [requested, HEADER] at exact ⊢
    omega
  have place : b.vm.proc.sz - (2 ^ 32 - requested nbytes) =
      b.vm.proc.sz + requested nbytes - 2 ^ 32 := by omega
  rw [refused_iff some (by omega), place]
  exact or_congr (by omega) (and_congr_left fun _ => by omega)

theorem kernel_not_given {s : Except Panic Brk} : ¬ Brk.Given s KERNBASE := by
  cases s with
  | error e => exact id
  | ok b => exact fun given => absurd given.1 (Nat.not_lt.mpr b.low)

def Heap.Real (h : Heap (Except Panic Brk)) : Prop :=
  ∀ b, h.sys = .ok b → ∀ x, (∃ r ∈ h.obtained, Inside HEADER r x) → Brk.Given (.ok b) x

theorem Heap.Real.congr (real : h.Real) (sys : g.sys = h.sys) (obtained : g.obtained = h.obtained) :
    g.Real := by
  unfold Heap.Real
  rw [sys, obtained]
  exact real

theorem Heap.Real.asked (real : h.Real) (pos : 0 < n) (small : HEADER * n < 2 ^ 31)
    {answer : Option Nat}
    (asked : Heap.Asked sysSbrk n h g answer) : g.Real := by
  obtain ⟨called, obtained⟩ := asked
  obtain ⟨more, fits, -⟩ := Heap.coreUnits_spec small
  have some : 0 < HEADER * Heap.coreUnits n := by simp only [HEADER]; omega
  intro d same x ⟨r, mem, inside⟩
  rw [obtained] at mem
  rw [same] at called
  cases before : h.sys with
  | error e =>
    rw [before] at called
    cases called
  | ok b =>
    rw [before] at called
    cases answer with
    | none =>
      rcases (sysSbrk_none ⟨by omega, by omega⟩ called).2 with ⟨e, failed⟩ | ⟨c, done, given, size⟩
      · cases failed
      · cases done
        rw [Option.toList_none, List.map_nil, List.append_nil] at mem
        obtain ⟨less, old⟩ := real b before x ⟨r, mem, inside⟩
        exact ⟨size ▸ less, given ▸ old⟩
    | some a =>
      obtain ⟨rfl, -, c, done, -, grows⟩ := sysSbrk_some ⟨by omega, by omega⟩ called
      cases done
      obtain ⟨given, size, -⟩ := grows (by omega)
      rw [Int.toNat_natCast] at given
      rcases List.mem_append.mp mem with old | new
      · obtain ⟨less, q, member, part⟩ := real b before x ⟨r, old, inside⟩
        exact ⟨by omega, q, given ▸ List.mem_append_left _ member, part⟩
      · cases List.mem_singleton.mp new
        obtain ⟨first, last⟩ := inside
        exact ⟨by simp only at first last; omega, (b.vm.proc.sz, HEADER * Heap.coreUnits n),
          given ▸ List.mem_append_right _ List.mem_cons_self, first, last⟩

theorem Heap.Real.honest {a : Nat} {c : Brk} (real : g.Real) (sys : g.sys = .ok c)
    (ok : g.Ok base (Brk.top g.sys) F ((a, n) :: L)) (room : nbytes + HEADER ≤ HEADER * n) :
    Honest g.sys (a + HEADER) nbytes := by
  have mem : (a, n) ∈ F ++ (a, n) :: L := List.mem_append_right _ List.mem_cons_self
  have bounds := ok.bounds mem
  have top := ok.top
  refine .inr fun i less => ?_
  rw [Nat.mod_eq_of_lt (by simp only at bounds; omega), sys]
  refine real c sys _ ((ok.held.tiles.cover _).mpr ⟨(a, n), mem, ?_⟩)
  simp only [Inside]
  omega

theorem start_sys (h : Heap (Except Panic Brk)) (base : Nat) :
    (h.start base).sys = h.sys ∧ (h.start base).obtained = h.obtained := by
  unfold Heap.start
  split <;> exact ⟨rfl, rfl⟩

theorem start_empty (ok : (h.start base).Ok base n F L) :
    F = [] ↔ h.freep = 0 ∨ h.ptr base = base := by
  have unused : (h.start base).ptr base = base ↔ h.freep = 0 ∨ h.ptr base = base := by
    unfold Heap.start
    split
    · rename_i zero
      simp [zero]
    · rename_i used
      simp [used]
  rw [← unused]
  have circle := ok.circle
  have sorted := ok.sorted
  cases F with
  | nil => exact iff_of_true rfl circle
  | cons x F =>
    rw [circle.1]
    have := (List.pairwise_cons.mp sorted).1 x.1 List.mem_cons_self
    exact iff_of_false (by simp) (by omega)

theorem Heap.Real.malloc (real : h.Real)
    (ok : (h.start base).Ok base (Brk.top (h.start base).sys) F L)
    (pos : 0 < base) (small : requested nbytes < 2 ^ 31) :
    ∃ g r, h.malloc sysSbrk base nbytes = some (g, r) ∧ g.Real ∧
      (h.sys = .ok b → Honest g.sys r nbytes) := by
  obtain ⟨n, units, fits, room⟩ : ∃ n, Heap.units nbytes = n ∧ HEADER * n < 2 ^ 31 ∧
      nbytes + HEADER ≤ HEADER * n := by
    refine ⟨_, rfl, ?_⟩
    simp only [requested, Heap.units, HEADER] at small ⊢
    omega
  have some : 0 < n := by rw [← units]; exact Nat.succ_pos _
  have real := real.congr (start_sys h base).1 (start_sys h base).2
  obtain ⟨g, r, F', run, result⟩ := ok.malloc sysSbrk_fresh pos some fits
  rw [← units] at run
  refine ⟨g, r, run, ?_⟩
  rcases result with ⟨zero, -, -, asked⟩ | ⟨a, rfl, good, ⟨kept, regions, -⟩ | ⟨c, asked⟩⟩
  · exact ⟨real.asked some fits asked, fun _ => .inl zero⟩
  · have next := real.congr kept regions
    exact ⟨next, fun sys => next.honest (kept.trans ((start_sys h base).1.trans sys)) good room⟩
  · have next := real.asked some fits asked
    refine ⟨next, fun sys => ?_⟩
    have called := asked.1
    rw [(start_sys h base).1, sys] at called
    obtain ⟨-, -, c, same, -⟩ := sysSbrk_some (by
      have := (Heap.coreUnits_spec fits).2.1
      omega) called
    exact next.honest same good room

theorem malloc_wraps (sys : h.sys = .ok b) (ok : (h.start base).Ok base b.vm.proc.sz F L)
    (pos : 0 < base)
    (exact : nbytes + (HEADER - 1) < 2 ^ 32) (large : ¬ requested nbytes < 2 ^ 31) :
    (∃ g r, h.malloc sysSbrk base nbytes = some (g, r) ∧ Honest g.sys r nbytes) ↔
      b.Refused (-((2 ^ 32 - requested nbytes : Nat) : Int)) := by
  have units : Heap.units nbytes = (nbytes + (HEADER - 1)) / HEADER + 1 := by
    rw [Heap.units, Nat.mod_eq_of_lt exact]
  have some : 0 < nbytes := by simp only [requested, HEADER] at large; omega
  have arg : Heap.toInt (HEADER * Heap.units nbytes % 2 ^ 32) =
      -((2 ^ 32 - requested nbytes : Nat) : Int) := by
    rw [units]
    exact toInt_wrap exact large
  have size : 2 ^ 28 ≤ Heap.units nbytes ∧ Heap.units nbytes ≤ 2 ^ 29 := by
    simp only [requested, HEADER] at units large exact
    omega
  rw [← (start_sys h base).1] at sys
  rcases answer : sysSbrk (h.start base).sys
      (-((2 ^ 32 - requested nbytes : Nat) : Int)) with ⟨t, _ | a⟩
  · rw [← arg] at answer
    have run := ok.refused size.1 answer
    rw [arg] at answer
    rw [sys] at answer
    exact iff_of_true ⟨_, 0, run, .inl rfl⟩ (sysSbrk_none ⟨by omega, by omega⟩ answer).1
  · rw [sys] at answer
    obtain ⟨rfl, accepted, c, rfl, shrinks, -⟩ := sysSbrk_some ⟨by omega, by omega⟩ answer
    have kernel := b.low
    rw [← arg, ← sys] at answer
    obtain ⟨f, run, same⟩ := ok.overpromise pos size.1 size.2 (Nat.le_refl _)
      (by simp only [KERNBASE] at kernel; omega) answer
    refine iff_of_false ?_ accepted
    rintro ⟨g, r, again, honest⟩
    cases run.symm.trans again
    rw [same] at honest
    have first := (honest.resolve_left (by simp [HEADER]) 0 some).1
    have := shrinks (by omega)
    simp only [KERNBASE, HEADER] at kernel first
    omega

theorem malloc_one_unit (sys : h.sys = .ok b)
    (ok : (h.start base).Ok base (Brk.top (h.start base).sys) F L)
    (pos : 0 < base) (uint : nbytes < 2 ^ 32) (wraps : ¬ nbytes + (HEADER - 1) < 2 ^ 32) :
    (∃ g r, h.malloc sysSbrk base nbytes = some (g, r) ∧ Honest g.sys r nbytes) ↔ F = [] ∧
      b.Refused 32768 := by
  have units : Heap.units nbytes = 1 := by
    simp only [Heap.units, HEADER] at wraps ⊢
    omega
  rw [← (start_sys h base).1] at sys
  obtain ⟨g, r, F', run, result⟩ := ok.malloc sysSbrk_fresh pos (n := 1) (by decide) (by decide)
  rw [← units] at run
  rcases result with ⟨rfl, -, none, asked⟩ | ⟨a, rfl, good, served⟩
  · have called := asked.1
    rw [sys] at called
    refine iff_of_true ⟨g, 0, run, .inl rfl⟩ ⟨?_, (sysSbrk_none ⟨by decide, by decide⟩ called).1⟩
    refine List.eq_nil_iff_forall_not_mem.mpr fun x mem => ?_
    have := none x mem
    have := ok.bounds (List.mem_append_left L mem)
    omega
  · refine iff_of_false ?_ ?_
    · -- the request covers the address KERNBASE
      rintro ⟨g', r, again, honest⟩
      cases run.symm.trans again
      have bounds := good.bounds (List.mem_append_right F' List.mem_cons_self)
      have top := good.top
      simp only [HEADER] at bounds wraps honest
      have outside := honest.resolve_left (by omega) (2 ^ 31 - (a + 8)) (by omega)
      rw [show (a + 8 + (2 ^ 31 - (a + 8))) % 2 ^ 32 =
        KERNBASE by simp only [KERNBASE]; omega] at outside
      exact kernel_not_given outside
    · rintro ⟨rfl, refused⟩
      rcases served with ⟨-, -, x, mem, -⟩ | ⟨c, asked⟩
      · cases mem
      · have called := asked.1
        rw [sys] at called
        exact (sysSbrk_some ⟨by decide, by decide⟩ called).2.1 refused

theorem real_of_reaches (pos : 0 < base) {s : HeapUser (Except Panic Brk)}
    (run : Reaches (HeapUser.step sysSbrk base) HeapUser.Allowed (HeapUser.Fresh Brk.top base) s) :
    s.Good Brk.top base ∧ s.heap.Real := by
  refine run.invariant (fun s => s.Good Brk.top base ∧ s.heap.Real)
    (fun s fresh => ⟨.inl fresh, ?_⟩) fun s a t ⟨good, real⟩ allowed done => ?_
  · intro b _ x ⟨r, mem, _⟩
    rw [fresh.2.2.1] at mem
    cases mem
  · obtain ⟨u, same, next⟩ := good.step sysSbrk_fresh pos allowed
    cases done.symm.trans same
    refine ⟨next, ?_⟩
    cases a with
    | malloc nbytes =>
      obtain ⟨F, ok⟩ := good.start (sysSbrk_fresh.bound _) pos
      obtain ⟨g, r, called, real, -⟩ := real.malloc (b := ⟨{}, [], Nat.zero_le _⟩) ok pos allowed
      rw [HeapUser.step_malloc called] at done
      cases done
      exact real
    | free ap =>
      obtain ⟨u, again, -, sys, obtained⟩ := good.free allowed
      cases done.symm.trans again
      exact real.congr sys obtained

end Honest

/-- In every run of a program that frees what it has, and for every next request: malloc returns 0
or a pointer to memory of the process exactly if the request is one of those it serves. -/
theorem malloc_honest_iff {b : Brk} {base nbytes : Nat} {s : HeapUser (Except Panic Brk)}
    (pos : 0 < base)
    (run : Reaches (HeapUser.step sysSbrk base) HeapUser.Allowed (HeapUser.Fresh Brk.top base) s)
    (sys : s.heap.sys = .ok b) (uint : nbytes < 2 ^ 32) :
    (∃ g r, s.heap.malloc sysSbrk base nbytes = some (g, r) ∧ Honest g.sys r nbytes) ↔
      b.Serves base s.heap nbytes := by
  obtain ⟨good, real⟩ := real_of_reaches pos run
  obtain ⟨F, heap⟩ := good.start (sysSbrk_fresh.bound _) pos
  have ok := heap
  rw [(start_sys s.heap base).1, sys] at ok
  unfold Brk.Serves
  split
  · rename_i exact
    by_cases small : requested nbytes < 2 ^ 31
    · obtain ⟨g, r, called, -, honest⟩ := real.malloc heap pos small
      exact iff_of_true ⟨g, r, called, honest sys⟩ (.inl small)
    · have low := ok.low
      rw [or_iff_right small, ← refused_wrap (by simp only [Brk.top] at low; omega) exact small]
      exact malloc_wraps sys ok pos exact small
  · rename_i wraps
    rw [← start_empty heap]
    exact malloc_one_unit sys heap pos uint wraps

def Brk.unused (b : Brk) : HeapUser (Except Panic Brk) :=
  ⟨{ ptr := fun _ => 0, size := fun _ => 0, sys := .ok b }, []⟩

/-- The first malloc of a process, of ten bytes. -/
theorem malloc_honest_of_ten :
    ∃ g r, (Brk.unused ⟨onePageProc, [], by decide⟩).heap.malloc sysSbrk 64 10 = some (g, r) ∧
      Honest g.sys r 10 :=
  (malloc_honest_iff (by decide) (.start ⟨by decide, rfl, rfl, rfl⟩) rfl (by decide)).mpr
    (.inl (by decide))

def shortProc : Brk where
  vm := { onePageProc with proc := { onePageProc.proc with sz := 104 } }
  low := by decide

/-- malloc of 2^31 bytes calls sbrk(8 - 2^31), which does nothing and succeeds. -/
theorem malloc_promises_half_the_space :
    ∃ g c, shortProc.unused.heap.malloc sysSbrk 64 (2 ^ 31) = some (g, 112) ∧ g.sys = .ok c ∧
      c.vm.proc.sz ≤ 104 ∧
      ¬ Honest g.sys 112 (2 ^ 31) := by
  have fresh : shortProc.unused.Fresh Brk.top 64 := ⟨by decide, rfl, rfl, rfl⟩
  obtain ⟨F, ok⟩ := HeapUser.Good.start (.inl fresh) (sysSbrk_fresh.bound _) (by decide)
  have below :=
    growproc_below (s := shortProc.vm) (n := 8 - 2 ^ 31) (by decide) (by decide) (by decide)
  rcases answer : sysSbrk (.ok shortProc) (8 - 2 ^ 31) with ⟨t, _ | a⟩
  · exact absurd below ((sysSbrk_none (by decide) answer).1 _)
  · obtain ⟨rfl, -, c, rfl, shrinks, -⟩ := sysSbrk_some (by decide) answer
    obtain ⟨g, run, sys⟩ := ok.overpromise (n := 2 ^ 28 + 1) (by decide) (by decide) (by decide)
        (Nat.le_refl 104)
      (by decide) answer
    have size : c.vm.proc.sz ≤ 104 := shrinks (by decide)
    refine ⟨g, c, run, sys, size, fun honest => ?_⟩
    have first := honest.resolve_left (by decide) 0 (by decide)
    rw [sys] at first
    exact absurd first.1 (by omega)

end MmapXv6
