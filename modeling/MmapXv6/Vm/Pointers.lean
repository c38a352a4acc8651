import MmapXv6.Vm.Layout
import MmapXv6.Vm.Growth

/-! The arguments of a system call: fetchint of syscall.c compares a user pointer with sz
and then reads through it in kernel mode. A fault there must be one that the handler
serves, which is a question about the layout. -/
namespace MmapXv6

open Lib (bind_ok Reaches)
open Function

variable {a addr : Nat} {s : Vm}

/-- The result none is the -1 of an address that is refused. -/
def fetchint (s : Vm) (addr : Nat) : Except Panic (Option Nat × Vm) :=
  if s.proc.sz ≤ addr ∨ s.proc.sz < (addr + 4) % 2 ^ 32 then .ok (none, s)
  else do
    let (w, s) ← s.peekWord addr
    .ok (some w, s)

def argint (s : Vm) (esp n : Nat) : Except Panic (Option Nat × Vm) :=
  fetchint s ((esp + 4 + 4 * n) % 2 ^ 32)

/-- One of the three ways in which a kernel access to a user address succeeds or is
served by the handler. -/
def Resolved (s : Vm) (a : Nat) : Prop :=
  (s.entry (a / PGSIZE)).isSome ∨ InWindow s.proc a ∨ ∃ i, InMapping s.proc i a

theorem mmapin_none {p : Proc} (out : ∀ i, ¬InMapping p i a) :
    mmapin p.ommap a = none := by
  apply List.find?_eq_none.mpr
  intro i _ found
  simp only [Bool.and_eq_true, decide_eq_true_eq] at found
  exact out i ⟨found.1.1, found.1.2, found.2⟩

theorem access_unresolved (out : ¬Resolved s a) (write : Bool) :
    s.access a write false = .error .trap := by
  unfold Resolved at out
  push Not at out
  obtain ⟨absent, window, mapping⟩ := out
  have missing : s.entry (a / PGSIZE) = none := by simpa using absent
  have unserved : trap s a false = .error .trap := by
    unfold InWindow at window
    unfold trap
    rw [if_neg window, mmapin_none mapping]
    rfl
  unfold Vm.access Vm.admits
  rw [missing, Option.filter_none]
  rw [unserved]
  rfl

theorem fetchint_unresolved (low : s.proc.sz < 2 ^ 32)
    (accepted : addr + 4 ≤ s.proc.sz) (out : ¬Resolved s addr) :
    fetchint s addr = .error .trap := by
  have first : s.peek (addr + 0) = .error .trap := by
    unfold Vm.peek
    rw [Nat.add_zero, access_unresolved out]
    rfl
  unfold fetchint Vm.peekWord
  rw [if_neg (by omega)]
  simp only [List.range, List.range.loop, List.foldlM_cons, first]
  rfl

structure Wider (s t : Vm) : Prop where
  sz : t.proc.sz = s.proc.sz
  sstack : t.proc.sstack = s.proc.sstack
  ommap : t.proc.ommap = s.proc.ommap
  pages : ∀ v, (s.entry v).isSome → (t.entry v).isSome

namespace Wider
variable {s t w : Vm}

theorem refl (s : Vm) : Wider s s := ⟨rfl, rfl, rfl, fun _ h => h⟩

theorem trans (h : Wider s t) (h' : Wider t w) : Wider s w :=
  ⟨h'.sz.trans h.sz, h'.sstack.trans h.sstack, h'.ommap.trans h.ommap,
    fun v there => h'.pages v (h.pages v there)⟩

theorem paged {u : Uvm} {v : Nat} (h : Paged s.uvm u v) : Wider s (s.setUvm u) := by
  refine ⟨rfl, rfl, rfl, fun v there => ?_⟩
  change (u.pgdir.entry v).isSome
  rcases h.entry with same | ⟨pa, added⟩
  · rwa [same]
  · rw [added, update_apply]
    split
    · rfl
    · exact there

theorem fill {v : Nat} {e : Pte} (there : s.entry v = some e) (page : Lib.Bytes) :
    Wider s (s.fill v e page) := by
  refine ⟨rfl, rfl, rfl, fun v old => ?_⟩
  rw [Vm.fill_entry there, update_apply]
  split
  · rfl
  · exact old

theorem trapped {cr2 : Nat} {user : Bool} (h : Trapped s cr2 user t) : Wider s t := by
  cases h with
  | killed _ => exact ⟨rfl, rfl, rfl, fun _ h => h⟩
  | stack _ added => exact .paged added
  | @mapped u _ _ _ added loaded =>
    apply (Wider.paged added).trans
    cases loaded with
    | nothing _ => exact ⟨rfl, rfl, rfl, fun _ h => h⟩
    | @page fs e page _ there =>
      exact ⟨rfl, rfl, rfl, (Wider.fill (s := { s.setUvm u with fs := fs }) there page).pages⟩

theorem load {b : Option UInt8} (word : a < 2 ^ 32) (done : s.load a = .ok (b, t)) :
    Wider s t := by
  rcases load_cases word done with rfl | fault
  · exact .refl s
  · exact .trapped fault

theorem store {b : UInt8} {user ok : Bool} (word : a < 2 ^ 32)
    (done : s.store a b user = .ok (ok, t)) : Wider s t := by
  have accessed : ∀ {w : Vm}, s = w ∨ Trapped s a user w → Wider s w := by
    rintro w (rfl | fault)
    · exact .refl s
    · exact .trapped fault
  cases store_stored word done with
  | killed _ fault => exact accessed (.inr fault)
  | done from_ there => exact (accessed from_).trans (.fill there _)

theorem storeWord {w : Nat} (done : s.storeWord addr w = .ok t) : Wider s t := by
  apply Lib.foldlM_ok (Wider s) _ _ _ _ (.refl s) done
  intro x p t mem wide stored
  obtain ⟨⟨ok, y⟩, done, eq⟩ := bind_ok.mp stored
  cases eq
  obtain ⟨j, -, rfl⟩ := List.mem_map.mp mem
  exact wide.trans (.store (Nat.mod_lt _ (by decide)) done)

theorem resolved (h : Wider s t) (before : Resolved s a) : Resolved t a := by
  unfold Resolved InWindow InMapping Live at before ⊢
  rw [h.sstack, h.ommap]
  exact before.imp_left (h.pages _)

end Wider

def AllResolved (s : Vm) : Prop := ∀ a, a < s.proc.sz → Resolved s a

theorem Wider.all {t : Vm} (h : Wider s t) (before : AllResolved s) : AllResolved t :=
  fun a below => h.resolved (before a (h.sz ▸ below))

/-- The steps that leave no hole below sz. What is above the end of a new mapping, or
above an sz that grows, must be in a page that is there; munmap, which leaves sz alone,
must take nothing below sz that is not in the window or in another mapping; and a growth
must not run out of memory at its last page. -/
def SpaceAct.NoHole (s : Vm) : SpaceAct → Prop
  | .mmap fd addr => MapsFile s fd addr fun size => s.proc.sz + size + (PGSIZE - 1) < 2 ^ 32 ∧
      ((s.proc.sz + size) % PGSIZE ≠ 0 → (s.entry ((s.proc.sz + size) / PGSIZE)).isSome)
  | .munmap addr => ∀ i, Live s.proc i → (s.proc.ommap i).va = addr →
      2 * (s.proc.ommap i).va + (s.proc.ommap i).sz ≤ KERNBASE ∧
      ∀ a, a < s.proc.sz → (s.proc.ommap i).va ≤ a →
        PGROUNDDOWN a < 2 * (s.proc.ommap i).va + (s.proc.ommap i).sz →
        InWindow s.proc a ∨ ∃ j, j ≠ i ∧ InMapping s.proc j a
  | .sbrk n =>
      (0 < n → (s.proc.sz % PGSIZE ≠ 0 → (s.entry (s.proc.sz / PGSIZE)).isSome) ∧
        s.proc.pgdir.need (PGROUNDUP s.proc.sz) (brk s.proc n) ≤ s.kmem.freelist.length) ∧
      (n < 0 → brk s.proc n < s.proc.sz → s.proc.sz ≤ KERNBASE ∧ brk s.proc n ≠ 0)
  | .fork _ => False
  | .load a => a < 2 ^ 32
  | .store a _ => a < 2 ^ 32
  | .outside .. => True

section Holes
variable {s t : Vm}

theorem addMmap_resolved {i : Fin MAXMAPPEDFILES} {f : Fin NFILE} {size : Nat}
    (unused : (s.proc.ommap i).pfile = none) (fits : s.proc.sz + size + (PGSIZE - 1) < 2 ^ 32)
    (last : (s.proc.sz + size) % PGSIZE ≠ 0 → (s.entry ((s.proc.sz + size) / PGSIZE)).isSome)
    (all : AllResolved s) : AllResolved (s.addMmap i f size) := by
  intro a below
  rw [addMmap_sz fits] at below
  by_cases old : a < s.proc.sz
  · rcases all a old with present | window | ⟨j, live, inside⟩
    · exact .inl present
    · exact .inr (.inl window)
    · have ne : j ≠ i := by
        rintro rfl
        rw [Live, unused] at live
        cases live
      refine .inr (.inr ⟨j, ?_⟩)
      unfold InMapping Live
      rw [addMmap_ne ne]
      exact ⟨live, inside⟩
  · by_cases inside : a < s.proc.sz + size
    · refine .inr (.inr ⟨i, ?_⟩)
      unfold InMapping Live
      rw [addMmap_self]
      refine ⟨rfl, by dsimp only; omega, ?_⟩
      dsimp only
      omega
    · -- the rest of the last page
      have page : a / PGSIZE = (s.proc.sz + size) / PGSIZE := by
        simp only [PGSIZE]
        omega
      refine .inl ?_
      rw [page]
      exact last (by simp only [PGSIZE]; omega)

theorem munmap_resolved {r : Int} (calm : SpaceAct.NoHole s (.munmap addr))
    (all : AllResolved s) (done : munmap s addr = .ok (r, t)) : AllResolved t := by
  unfold munmap at done
  split at done
  · cases done
    exact all
  · rename_i i found
    obtain ⟨-, live, rfl⟩ := mappingAt_some found
    split at done
    · cases done
      exact all
    · obtain ⟨t, unmapped, eq⟩ := bind_ok.mp done
      cases eq
      obtain ⟨w, _, u, -, proc, -, freed, rfl⟩ := munmapAt_cases unmapped
      obtain ⟨user, covered⟩ := calm i live rfl
      have low : ((s.proc.ommap i).va +
          ((s.proc.ommap i).va + (s.proc.ommap i).sz) % 2 ^ 32) % 2 ^ 32 =
          2 * (s.proc.ommap i).va + (s.proc.ommap i).sz := by
        simp only [KERNBASE] at user
        omega
      rw [low] at freed
      have gone := deallocuvm_freed user freed
      intro a below
      change a < w.proc.sz at below
      rw [proc] at below
      -- what is taken is in the window or in a mapping that stays
      have stays : InWindow s.proc a ∨ (∃ j, j ≠ i ∧ InMapping s.proc j a) →
          Resolved ((w.setUvm u).dropMmap i) a := by
        rintro (window | ⟨j, ne, other, inside⟩)
        · refine .inr (.inl ?_)
          change InWindow w.proc a
          rw [proc]
          exact window
        · refine .inr (.inr ⟨j, ?_⟩)
          have same : ((w.setUvm u).dropMmap i).proc.ommap j = s.proc.ommap j := by
            change update w.proc.ommap i _ j = _
            rw [update_of_ne ne, proc]
          unfold InMapping Live
          rw [same]
          exact ⟨other, inside⟩
      rcases all a below with present | window | ⟨j, mapping⟩
      · rcases gone.entry (a / PGSIZE) with same | ⟨-, above, under⟩
        · refine .inl ?_
          change (u.pgdir.entry (a / PGSIZE)).isSome
          rw [same]
          exact present
        · refine stays (covered a below ?_ under)
          have := PGROUNDUP_eq (show (s.proc.ommap i).va + 4095 < 2 ^ 32 by
            simp only [KERNBASE] at user
            omega)
          simp only [PGSIZE] at above
          omega
      · exact stays (.inl window)
      · by_cases ne : j = i
        · subst ne
          obtain ⟨-, above, under⟩ := mapping
          refine stays (covered a below above ?_)
          unfold PGROUNDDOWN
          simp only [PGSIZE]
          omega
        · exact stays (.inr ⟨j, ne, mapping⟩)

theorem resized_resolved {r : Nat × Uvm} (all : AllResolved s)
    (same : ∀ a, a < s.proc.sz → a < r.1 ∨ r.1 = 0 → (s.entry (a / PGSIZE)).isSome →
      (r.2.pgdir.entry (a / PGSIZE)).isSome)
    (grown : ∀ a, s.proc.sz ≤ a → a < r.1 → (r.2.pgdir.entry (a / PGSIZE)).isSome) :
    AllResolved (s.resized r) := by
  unfold Vm.resized
  intro a below
  split
  · rename_i zero
    rw [if_pos zero] at below
    exact (all a below).imp_left (same a below (.inr zero))
  · rename_i nonzero
    rw [if_neg nonzero] at below
    by_cases old : a < s.proc.sz
    · exact (all a old).imp_left (same a old (.inl below))
    · exact .inl (grown a (by omega) below)

theorem growproc_resolved {n r : Int} (calm : SpaceAct.NoHole s (.sbrk n)) (all : AllResolved s)
    (done : growproc s n = .ok (r, t)) : AllResolved t := by
  cases growproc_resizing done with
  | same => exact all
  | @grow r pos grown =>
    obtain ⟨last, room⟩ := calm.1 pos
    obtain ⟨sz, u⟩ := r
    rcases allocuvm_cases grown with ⟨-, rfl, rfl⟩ | ⟨-, rfl, rfl⟩ | ⟨le, low, -⟩
    · exact resized_resolved all (fun _ _ _ h => h) fun a _ below =>
        absurd below (Nat.not_lt_zero a)
    · exact resized_resolved all (fun _ _ _ h => h) fun a above below => absurd below
        (by dsimp only; omega)
    · have size :=
        PGROUNDUP_eq (show s.proc.sz + 4095 < 2 ^ 32 by simp only [KERNBASE] at low; omega)
      have loop : allocuvmLoop (NPAGES + 1) s.uvm (PGROUNDUP s.proc.sz) s.proc.sz (brk s.proc n) =
          .ok (sz, u) := by
        rw [← grown, allocuvm, if_neg (by omega), if_neg (by omega)]
      obtain ⟨rfl, covers⟩ := allocuvmLoop_room low (PGROUNDUP_mod _) room loop
      apply resized_resolved all
      · intro a below _ there
        rw [covers.outside (a / PGSIZE) (.inl (by simp only [PGSIZE]; omega))]
        exact there
      · intro a above below
        by_cases first : a < PGROUNDUP s.proc.sz
        · rw [covers.outside (a / PGSIZE) (.inl (by simp only [PGSIZE]; omega))]
          have page : a / PGSIZE = s.proc.sz / PGSIZE := by
            simp only [PGSIZE]
            omega
          rw [page]
          exact last (by simp only [PGSIZE]; omega)
        · exact covers.range _ (by simp only [PGSIZE]; omega) (by simp only [PGSIZE]; omega)
  | @shrink r neg freed =>
    obtain ⟨sz, u⟩ := r
    by_cases less : brk s.proc n < s.proc.sz
    · obtain ⟨user, nonzero⟩ := calm.2 neg less
      have gone := deallocuvm_freed user freed
      have result : sz = brk s.proc n := by
        rcases deallocuvm_cases user freed with ⟨le, -⟩ | ⟨-, eq, -⟩
        · omega
        · exact eq
      subst result
      apply resized_resolved all
      · intro a below kept there
        have size := PGROUNDUP_eq (show brk s.proc n + 4095 < 2 ^ 32 by
          simp only [KERNBASE] at user
          omega)
        rcases gone.entry (a / PGSIZE) with same | ⟨-, above, -⟩
        · rw [same]
          exact there
        · simp only [PGSIZE] at above
          omega
      · intro a above below
        omega
    · have stays : deallocuvm s.uvm s.proc.sz (brk s.proc n) = .ok (s.proc.sz, s.uvm) :=
        if_pos (by omega)
      cases freed.symm.trans stays
      exact resized_resolved all (fun _ _ _ h => h) fun a above below => absurd below
        (by dsimp only; omega)

theorem AllResolved.step {a : SpaceAct} (all : AllResolved s) (calm : a.NoHole s)
    (done : spaceStep s a = .ok t) : AllResolved t := by
  cases a with
  | mmap fd addr =>
    obtain ⟨⟨r, t⟩, mapped, eq⟩ := bind_ok.mp done
    cases eq
    cases mmap_mapping mapped with
    | fail _ => exact all
    | @map _ i f ip opened inode unused stored =>
      dsimp only [SpaceAct.NoHole] at calm
      obtain ⟨fits, last⟩ := calm.size opened inode unused
      exact (Wider.storeWord stored).all (addMmap_resolved unused fits last all)
  | munmap addr =>
    obtain ⟨x, unmapped, eq⟩ := bind_ok.mp done
    cases eq
    exact munmap_resolved calm all unmapped
  | sbrk n =>
    obtain ⟨x, grown, eq⟩ := bind_ok.mp done
    cases eq
    exact growproc_resolved calm all grown
  | fork slot => exact calm.elim
  | load a =>
    obtain ⟨x, loaded, eq⟩ := bind_ok.mp done
    cases eq
    exact (Wider.load calm loaded).all all
  | store a b =>
    obtain ⟨x, stored, eq⟩ := bind_ok.mp done
    cases eq
    exact (Wider.store calm stored).all all
  | outside kmem fs ofile =>
    cases done
    exact all

end Holes

/-- Exec leaves the page below the stack window out, and every pointer into it is
accepted. In the state after exec, and in every state of a run from there whose steps
leave no hole, the accepted pointers are all resolved exactly when mappings of the image
before, which exec does not remove, cover that page and every other absent page below
the window. With no mapping left an argument in it stops the kernel. -/
theorem accepted_pointers_resolved {s : Vm} (fresh : JustExeced s.proc) :
    (∀ a, s.proc.sstack - PGSIZE ≤ a → a < s.proc.sstack →
      a < s.proc.sz ∧ s.entry (a / PGSIZE) = none ∧ ¬InWindow s.proc a) ∧
    ((∀ t, Reaches spaceStep (fun s a => a.NoHole s) (· = s) t → ∀ a, a < t.proc.sz →
      Resolved t a) ↔
      ∀ a, a < s.proc.sstack → s.entry (a / PGSIZE) = none → ∃ i, InMapping s.proc i a) ∧
    ((∀ i, ¬Live s.proc i) → fetchint s (s.proc.sstack - PGSIZE) = .error .trap) := by
  have size := fresh.size
  have low := fresh.low
  have room := fresh.guard
  have window : ∀ a, InWindow s.proc a ↔ s.proc.sstack ≤ a ∧ a < s.proc.sz := by
    intro a
    unfold InWindow
    rw [size] at low ⊢
    rw [Nat.mod_eq_of_lt (lt_trans low (by decide))]
  have hole : ∀ a, s.proc.sstack - PGSIZE ≤ a → a < s.proc.sstack →
      a < s.proc.sz ∧ s.entry (a / PGSIZE) = none ∧ ¬InWindow s.proc a := by
    intro a above below
    have aligned := fresh.aligned
    refine ⟨?_, fresh.hole _ ?_ ?_, fun inside => ?_⟩
    · omega
    · simp only [PGSIZE] at above room aligned ⊢
      omega
    · simp only [PGSIZE] at below ⊢
      omega
    · exact absurd ((window a).mp inside).1 (by omega)
  refine ⟨hole, ?_, fun unmapped => ?_⟩
  · constructor
    · intro all a below absent
      rcases all s (.start rfl) a (by omega) with present | inside | mapped
      · rw [absent] at present
        cases present
      · exact absurd ((window a).mp inside).1 (by omega)
      · exact mapped
    · intro covered t run
      apply run.invariant AllResolved ?_ fun _ _ _ all calm done => all.step calm done
      rintro s rfl a below
      by_cases inside : s.proc.sstack ≤ a
      · exact .inr (.inl ((window a).mpr ⟨inside, below⟩))
      · cases there : s.entry (a / PGSIZE) with
        | some e => exact .inl (by rw [there]; rfl)
        | none => exact .inr (.inr (covered a (by omega) there))
  · obtain ⟨_, absent, outside⟩ :=
      hole (s.proc.sstack - PGSIZE) (le_refl _) (by simp only [PGSIZE] at room ⊢; omega)
    apply fetchint_unresolved (lt_trans low (by decide))
    · simp only [PGSIZE] at room size ⊢
      omega
    · rintro (present | inside | ⟨i, mapped⟩)
      · rw [absent] at present
        cases present
      · exact outside inside
      · exact unmapped i mapped.1

theorem image_execed : JustExeced image.proc := by
  refine ⟨image_started.1, by decide, fun v above below => ?_⟩
  change 0x2000 ≤ v * 4096 + 4096 at above
  change v * 4096 < 0x2000 + 7 * 4096 at below
  have absent : imagePgdir.pte v = none := by
    unfold imagePgdir
    dsimp only
    rw [if_neg (by omega), if_neg (by omega), if_neg (by omega)]
  change imagePgdir.entry v = none
  unfold PgDir.entry
  rw [absent, ite_self]

/-- The same process with a file of one page that was mapped at 0x1000 before exec. -/
def patchedImage : Vm :=
  { image with
    proc := { image.proc with ommap := update image.proc.ommap 0 ⟨some 0, 0x1000, 0x1000⟩ }
    fs := { image.fs with inode := fun _ => { size := 0x1000 } } }

/-- The mapping covers the page below the stack window. The process then grows by a page. -/
theorem accepted_pointers_resolved_patched :
    ∃ t, Reaches spaceStep (fun s a => a.NoHole s) (· = patchedImage) t ∧ t.proc.sz = 0xB000 ∧
      ∀ a, a < 0xB000 → Resolved t a := by
  have fresh : JustExeced patchedImage.proc :=
    ⟨⟨image_execed.aligned, image_execed.size, image_execed.low, image_execed.below⟩,
      image_execed.guard, image_execed.hole⟩
  have covered : ∀ a, a < patchedImage.proc.sstack → patchedImage.entry (a / PGSIZE) = none →
      ∃ i, InMapping patchedImage.proc i a := by
    intro a below absent
    change a < 0x2000 at below
    refine ⟨0, rfl, show 0x1000 ≤ a from ?_, show a < 0x2000 from below⟩
    by_contra low
    rw [show a / PGSIZE = 0 by simp only [PGSIZE]; omega] at absent
    cases absent
  have grown : (spaceStep patchedImage (.sbrk 4096)).toOption.map (·.proc.sz) = some 0xB000 := by
    decide +kernel
  obtain ⟨t, done, size⟩ := Lib.ok_of_eval grown
  have start : Reaches spaceStep (fun s a => a.NoHole s)
      (· = patchedImage) patchedImage := .start rfl
  have calm : (SpaceAct.sbrk 4096).NoHole patchedImage :=
    ⟨fun _ => ⟨fun no => absurd rfl no, by decide +kernel⟩, fun no => absurd no (by decide)⟩
  have run := start.step calm done
  refine ⟨t, run, size, fun a below => ?_⟩
  exact (accepted_pointers_resolved fresh).2.1.mpr covered t run a (size ▸ below)

/-- A process that exec has just started, and a system call with its stack pointer at
0xFFC: the first argument is read at 0x1000, below sz = 0xA000, and the kernel stops. -/
theorem accepted_pointer_stops_kernel :
    ∃ s : Vm, Reaches spaceStep (fun _ a => a.Legal) Started s ∧ JustExeced s.proc ∧
      0x1000 < s.proc.sz ∧ ¬Resolved s 0x1000 ∧ argint s 0xFFC 0 = .error .trap := by
  refine ⟨image, .start image_started, image_execed, by decide, ?_, rfl⟩
  rintro (present | window | ⟨i, mapped⟩)
  · exact absurd present (by decide)
  · exact absurd window.1 (by decide)
  · exact image_started.2 i mapped.1

end MmapXv6
