import MmapXv6.Vm.Exec
import MmapXv6.Vm.Losses

/-! The memory of exec by numbers. What allocuvm returns, and whether it loses a page,
depends on the page tables that are there and on how many pages are free, and not on
which pages these are. So what exec does up to its arguments can be read off the file and
the length of the free list. -/
namespace MmapXv6

open Lib (bind_ok word)

/-- The page tables that are there, and how many pages are free. -/
structure Acct where
  has : Nat → Bool
  free : Nat

def Uvm.acct (u : Uvm) : Acct := ⟨u.pgdir.has, u.kmem.freelist.length⟩

namespace Acct

/-- Whether allocuvm from oldsz to newsz takes the last free page for data that then has
no page table. -/
def starves (A : Acct) (oldsz newsz : Nat) : Bool :=
  decide (oldsz ≤ newsz ∧ newsz < KERNBASE) &&
    MmapXv6.starves A.has (pagesTo (PGROUNDUP oldsz) newsz) (PGROUNDUP oldsz) A.free

/-- The loop of allocuvm over some pages from a. A page without a table is lost, and
the loop goes on. -/
def grow : Nat → Nat → Acct → Option Acct
  | 0, _, A => some A
  | n + 1, a, A =>
    if A.free = 0 then none
    else if A.has (PDX a) = false ∧ A.free = 1 then grow n (a + PGSIZE) ⟨A.has, 0⟩
    else grow n (a + PGSIZE) ⟨Function.update A.has (PDX a) true,
      A.free - 1 - if A.has (PDX a) then 0 else 1⟩

def allocuvm (A : Acct) (oldsz newsz : Nat) : Option (Nat × Acct) :=
  if KERNBASE ≤ newsz then none
  else if newsz < oldsz then some (oldsz, A)
  else (grow (pagesTo (PGROUNDUP oldsz) newsz) (PGROUNDUP oldsz) A).map fun B => (newsz, B)

end Acct

section Alloc
variable {u w : Uvm} {a oldsz newsz r : Nat}

def GrownTo (r : Nat) (w : Uvm) : Option (Nat × Acct) → Prop
  | some (size, B) => r = size ∧ w.acct = B
  | none => r = 0

theorem Allocs.acct (h : Allocs oldsz newsz u a r w) (low : newsz < KERNBASE) :
    GrownTo r w ((Acct.grow (pagesTo a newsz) a u.acct).map fun B => (newsz, B)) := by
  induction h with
  | stop above =>
    rw [pagesTo_none above]
    exact ⟨rfl, rfl⟩
  | @fail u w a r below none _ =>
    have empty : u.acct.free = 0 := congrArg List.length none
    rw [pagesTo_next below, Acct.grow, if_pos empty]
    rfl
  | @page u v w a mem r k q aligned below taken mapped _ _ later =>
    have list : u.acct.free = k.freelist.length + 1 := congrArg List.length (kalloc_some taken).1
    rw [pagesTo_next below, Acct.grow, if_neg (by omega)]
    cases mappages_maps aligned (below.trans low) (kalloc_hands taken fun _ => 0) mapped with
    | done _ has free _ _ _ =>
      have free : k.freelist.length = v.acct.free + if u.acct.has (PDX a) then 0 else 1 := free
      rw [if_neg fun last => by rw [last.1] at free; simp at free; omega]
      have same : v.acct = ⟨Function.update u.acct.has (PDX a) true,
          u.acct.free - 1 - if u.acct.has (PDX a) then 0 else 1⟩ := by
        unfold Uvm.acct at free list ⊢
        rw [has]
        congr 1
        dsimp only at free list ⊢
        omega
      rw [← same]
      exact later
    | none eq empty absent =>
      have last : u.acct.has (PDX a) = false ∧ u.acct.free = 1 :=
        ⟨by simp [Uvm.acct, PgDir.has, absent], by rw [list, show k.freelist = [] from empty]; rfl⟩
      have same : v.acct = ⟨u.acct.has, 0⟩ := by
        rw [eq]
        unfold Uvm.acct
        congr 1
        exact congrArg List.length empty
      rw [if_pos last, ← same]
      exact later

theorem allocuvm_acct (done : allocuvm u oldsz newsz = .ok (r, w)) :
    GrownTo r w (u.acct.allocuvm oldsz newsz) := by
  unfold allocuvm at done
  unfold Acct.allocuvm
  split at done
  · rename_i high
    cases done
    rw [if_pos high]
    rfl
  · rename_i low
    rw [if_neg low]
    split at done
    · rename_i less
      cases done
      rw [if_pos less]
      exact ⟨rfl, rfl⟩
    · rename_i more
      rw [if_neg more]
      exact (allocuvmLoop_allocs (by omega) (PGROUNDUP_mod oldsz) done).acct (by omega)

end Alloc

def Inode.header (ip : Inode) (off : Nat) : Proghdr := Proghdr.parse fun j => ip.data (off + j)

def Proghdr.end_ (ph : Proghdr) : Nat := (ph.vaddr + ph.memsz) % 2 ^ 32

def Inode.reads (ip : Inode) (off n : Nat) : Bool :=
  decide (off + n ≤ ip.size) && decide (off ≤ (off + n) % 2 ^ 32)

def Inode.readsAll (ip : Inode) (off n : Nat) : Prop :=
  ∀ j < pagesTo 0 n, ip.reads ((off + j * PGSIZE) % 2 ^ 32) (min (n - j * PGSIZE) PGSIZE) = true

instance (ip : Inode) (off n : Nat) : Decidable (ip.readsAll off n) :=
  inferInstanceAs (Decidable (∀ j < pagesTo 0 n, _))

/-- The segment loop by numbers: whether a page is lost in it, and the size and the
numbers that it ends with unless exec fails there. -/
def loadPlan (ip : Inode) : Nat → Nat → Nat → Acct → Bool × Option (Nat × Acct)
  | 0, _, sz, A => (false, some (sz, A))
  | n + 1, off, sz, A =>
    let ph := ip.header off
    let next := (off + PROGHDRSIZE) % 2 ^ 32
    if ip.reads off PROGHDRSIZE = false then (false, none)
    else if ph.type ≠ ELFPROGLOAD then loadPlan ip n next sz A
    else if ph.memsz < ph.filesz then (false, none)
    else
      let lost := A.starves sz ph.end_
      match A.allocuvm sz ph.end_ with
      | none => (lost, none)
      | some (size, B) =>
        if size = 0 ∨ ¬ip.readsAll ph.off ph.filesz then (lost, none)
        else (lost || (loadPlan ip n next size B).1, (loadPlan ip n next size B).2)

section Read
variable {ip : Inode}

theorem readi_reads {off n : Nat} {r : Int} {b : Lib.Bytes} (read : readi ip off n = .ok (r, b)) :
    r = n ↔ ip.reads off n = true := by
  unfold readi at read
  unfold Inode.reads
  rw [Bool.and_eq_true, decide_eq_true_iff, decide_eq_true_iff]
  split at read
  · cases read
  · split at read
    · cases read
      omega
    · cases read
      split <;> omega

theorem loaduvmLoop_reads {addr offset sz n i : Nat} {u w : Uvm} {r : Int}
    (aligned : i % PGSIZE = 0)
    (word : sz ≤ 2 ^ 32) (done : loaduvmLoop addr ip offset sz n u i = .ok (r, w)) :
    (r < 0 → ¬ip.readsAll offset sz) ∧
    (¬r < 0 → ∀ j, i ≤ j * PGSIZE → j * PGSIZE < sz →
      ip.reads ((offset + j * PGSIZE) % 2 ^ 32) (min (sz - j * PGSIZE) PGSIZE) = true) := by
  induction n generalizing u i with
  | zero => cases done
  | succ n ih =>
    unfold loaduvmLoop loaduvmLoopWith at done
    split at done
    · dsimp only at done
      split at done
      · cases done
      · obtain ⟨⟨q, bytes⟩, read, rest⟩ := bind_ok.mp done
        have here : i / PGSIZE * PGSIZE = i := by
          simp only [PGSIZE] at aligned ⊢
          omega
        have size : (if sz - i < PGSIZE then sz - i else PGSIZE) = min (sz - i) PGSIZE := by
          split <;> omega
        rw [size] at read rest
        have whole := readi_reads read
        split at rest
        · rename_i part
          cases rest
          refine ⟨fun _ all => part (whole.mpr ?_), fun no => absurd (by decide) no⟩
          have := all (i / PGSIZE) (by unfold pagesTo; simp only [PGSIZE]; omega)
          rwa [here] at this
        · rename_i got
          have next : (i + PGSIZE) % 2 ^ 32 % PGSIZE = 0 := by
            simp only [PGSIZE] at aligned ⊢
            omega
          obtain ⟨bad, good⟩ := ih next rest
          refine ⟨bad, fun served j low high => ?_⟩
          by_cases at_ : i = j * PGSIZE
          · rw [← at_]
            exact whole.mp (not_not.mp got)
          · refine good served j ?_ high
            simp only [PGSIZE] at aligned low high at_ ⊢
            omega
    · rename_i above
      cases done
      exact ⟨fun no => absurd no (by decide), fun _ j low high => absurd high (by omega)⟩

theorem loaduvm_reads {addr offset sz : Nat} {u w : Uvm} {r : Int} (word : sz ≤ 2 ^ 32)
    (done : loaduvm u addr ip offset sz = .ok (r, w)) : r < 0 ↔ ¬ip.readsAll offset sz := by
  unfold loaduvm loaduvmWith at done
  split at done
  · cases done
  · obtain ⟨bad, good⟩ := loaduvmLoop_reads (by decide) word done
    refine ⟨bad, fun not => ?_⟩
    by_contra served
    refine not fun j lt => good served j (Nat.zero_le _) ?_
    unfold pagesTo at lt
    simp only [PGSIZE] at lt ⊢
    omega

end Read

end MmapXv6
