import MmapXv6.Vm.Plan

/-! The memory of exec. Everything that exec does before its commit happens in a new
directory, whose pages come from the free list. This holds for files whose segments end
below 2^32: loaduvm follows the addresses of the file, and with a segment that wraps
around it writes through the kernel's half. -/
namespace MmapXv6

open Lib (bind_ok word)

variable {addr n newsz off offset oldsz sz sz' : Nat} {ok : Bool} {r : Int} {s t : Vm} {u v w : Uvm}

def segmentsFit (ip : Inode) : Nat → Nat → Prop
  | 0, _ => True
  | n + 1, off => ((ip.header off).type = ELFPROGLOAD →
      (ip.header off).vaddr + (ip.header off).memsz < 2 ^ 32) ∧
      segmentsFit ip n ((off + PROGHDRSIZE) % 2 ^ 32)

def loadable (ip : Inode) (off : Nat) : Prop :=
  ip.reads off PROGHDRSIZE = true ∧ (ip.header off).type = ELFPROGLOAD ∧
    (ip.header off).filesz ≤ (ip.header off).memsz

section Filled

/-- Every page below sz is there, except that one may miss together with its page table
when nothing is free any more. -/
def Filled (u : Uvm) (sz : Nat) : Prop := ∀ v, v * PGSIZE < sz →
  (u.pgdir.entry v).isSome ∨ u.pgdir.tab (v / NPTENTRIES) = none ∧ u.kmem.freelist = []

variable {u w : Uvm} {a oldsz newsz r : Nat}

theorem Filled.all (h : Filled u a) (more : u.kmem.freelist ≠ []) {v : Nat}
    (below : v * PGSIZE < a) :
    (u.pgdir.entry v).isSome := (h v below).resolve_right fun none => more none.2

theorem Filled.same (h : Filled u sz) (pgdir : w.pgdir = u.pgdir)
    (free : w.kmem.freelist = u.kmem.freelist) : Filled w sz := by
  unfold Filled
  rw [pgdir, free]
  exact h

theorem Allocs.filled (h : Allocs oldsz newsz u a r w) (low : newsz < KERNBASE)
    (filled : Filled u a) (served : r ≠ 0) : Filled w newsz := by
  induction h with
  | stop above => exact fun x lt => filled x (by omega)
  | fail _ _ _ => exact absurd rfl served
  | @page u v w a mem r k q aligned below taken mapped _ _ ih =>
    have hands := kalloc_hands taken fun _ => 0
    have before : ∀ x, x * PGSIZE < a → (u.pgdir.entry x).isSome := fun x =>
      filled.all fun empty => by
        have := hands.mem_list
        rw [empty] at this
        cases this
    have cases : ∀ x, x * PGSIZE < a + PGSIZE → x * PGSIZE < a ∨ x = a / PGSIZE := by
      intro x lt
      simp only [PGSIZE] at aligned lt ⊢
      omega
    refine ih (fun x lt => ?_) served
    cases mappages_maps aligned (below.trans low) hands mapped with
    | done moves has free sub here others =>
      left
      by_cases at_ : x = a / PGSIZE
      · rw [at_]
        exact here
      · rw [others x at_]
        exact before x ((cases x lt).resolve_right at_)
    | none eq empty absent =>
      subst eq
      rcases cases x lt with lt | rfl
      · exact .inl (before x lt)
      · exact .inr ⟨absent, empty⟩

theorem allocuvm_filled (filled : Filled u oldsz) (small : oldsz < KERNBASE)
    (done : allocuvm u oldsz newsz = .ok (r, w)) (served : r ≠ 0) : Filled w r := by
  rcases allocuvm_cases done with ⟨-, zero, -⟩ | ⟨-, rfl, rfl⟩ | ⟨-, low, loop⟩
  · exact absurd zero served
  · exact filled
  · obtain rfl := loop.result.resolve_left served
    refine loop.filled low (fun v lt => filled v ?_) served
    rw [PGROUNDUP_eq (by simp only [KERNBASE] at small; omega)] at lt
    simp only [PGSIZE] at lt ⊢
    omega

end Filled

section Guard

def PgDir.Guarded (d : PgDir) : Prop := ∀ v, UPAGES ≤ v → ∀ e, d.entry v = some e → e.user = false

variable {u w : Uvm}

theorem mappagesLoop_supervisor {a last : Nat} {e : Pte}
    (none : ∀ v f, u.pgdir.entry v = some f → f.user = false) (flag : e.user = false)
    (done : mappagesLoop n u a last e = .ok (r, w)) {v : Nat} {f : Pte}
    (there : w.pgdir.entry v = some f) : f.user = false := by
  induction n generalizing u a e with
  | zero => cases done
  | succ n ih =>
    unfold mappagesLoop at done
    split at done
    · cases done
      exact none v f there
    · rename_i x walked
      obtain ⟨entry, table, -, -⟩ := walkpgdir_some walked
      split at done
      · cases done
      · have first : ∀ v f, (x.pgdir.set (a / PGSIZE) (some e)).entry v = some f →
            f.user = false := by
          intro v f here
          rw [x.pgdir.entry_set (some e) table, Function.update_apply, entry] at here
          split at here
          · cases here
            exact flag
          · exact none v f here
        split at done
        · cases done
          exact first v f there
        · exact ih (u := { x with pgdir := x.pgdir.set (a / PGSIZE) (some e) })
            (e := { e with pa := e.pa + 1 }) first flag done

theorem setupkvmLoop_supervisor {ks : List Kmap}
    (none : ∀ v f, u.pgdir.entry v = some f → f.user = false)
    (done : setupkvmLoop ks u = .ok (ok, w)) {v : Nat} {f : Pte}
    (there : w.pgdir.entry v = some f) : f.user = false := by
  induction ks generalizing u with
  | nil =>
    cases done
    exact none v f there
  | cons m ks ih =>
    obtain ⟨⟨r, x⟩, mapped, rest⟩ := bind_ok.mp done
    have first : ∀ v f, x.pgdir.entry v = some f → f.user = false :=
      fun v f here => mappagesLoop_supervisor none rfl mapped here
    dsimp only at rest
    split at rest
    · cases rest
      exact first v f there
    · exact ih first rest

theorem setupkvm_guarded {k k' : Kmem} {d : PgDir} (done : setupkvm k = .ok (some d, k')) :
    d.Guarded := by
  unfold setupkvm at done
  split at done
  · cases done
  · obtain ⟨⟨ok, x⟩, loop, eq⟩ := bind_ok.mp done
    cases ok with
    | false => cases eq
    | true =>
      cases eq
      exact fun v _ e there => setupkvmLoop_supervisor (fun _ _ h => by cases h) loop there

theorem allocuvm_guarded {r : Nat} (guarded : u.pgdir.Guarded)
    (done : allocuvm u oldsz newsz = .ok (r, w)) : w.pgdir.Guarded := by
  intro v high e there
  rcases allocuvm_cases done with ⟨-, -, rfl⟩ | ⟨-, -, rfl⟩ | ⟨le, low, loop⟩
  · exact guarded v high e there
  · exact guarded v high e there
  · rw [loop.outside low (Nat.le_refl _) (.inr ?_)] at there
    · exact guarded v high e there
    · simp only [UPAGES, KERNBASE, PGSIZE] at high low ⊢
      omega

end Guard

section Load
variable {u w : Uvm} {ip : Inode} {leak stray : Prop}

theorem loaduvmLoop_moves {i top : Nat}
    (own : stray ∨ Filled u top ∧ addr + sz ≤ top ∧ top ≤ KERNBASE)
    (done : loaduvmLoop addr ip offset sz n u i = .ok (r, w)) :
    Moves leak stray u w ∧ w.pgdir = u.pgdir ∧ w.kmem.freelist = u.kmem.freelist := by
  induction n generalizing u i with
  | zero => cases done
  | succ n ih =>
    unfold loaduvmLoop loaduvmLoopWith at done
    split at done
    · dsimp only at done
      rw [walkpgdir_noalloc] at done
      split at done
      · cases done
      · rename_i x walked
        obtain ⟨table, rfl⟩ : (u.pgdir.tab (PDX ((addr + i) % 2 ^ 32))).isSome ∧ u = x := by
          simpa using walked
        obtain ⟨⟨q, bytes⟩, -, rest⟩ := bind_ok.mp done
        generalize (if sz - i < PGSIZE then sz - i else PGSIZE) = n1 at rest
        have write : Move leak stray u
            (u.put (pteAddr (u.pgdir.pte ((addr + i) % 2 ^ 32 / PGSIZE))) q bytes) := by
          refine .write _ (own.symm.imp (fun ⟨filled, fits, low⟩ => ?_) id)
          have va : (addr + i) % 2 ^ 32 = addr + i := by
            simp only [KERNBASE] at low
            omega
          rw [va] at table ⊢
          have same := u.pgdir.entry_of_table table
          have there := (filled ((addr + i) / PGSIZE) (by simp only [PGSIZE]; omega)).resolve_right
            fun absent => by
              change (u.pgdir.tab ((addr + i) / PGSIZE / NPTENTRIES)).isSome at table
              rw [absent.1] at table
              cases table
          obtain ⟨e, entry⟩ := Option.isSome_iff_exists.mp there
          exact ⟨_, e, user_page (by omega), entry, by rw [← same, entry]; rfl⟩
        split at rest
        · cases rest
          exact ⟨.single write, rfl, rfl⟩
        · obtain ⟨moves, pgdir, free⟩ := ih (own.imp_right fun h => ⟨h.1.same rfl rfl, h.2⟩) rest
          exact ⟨.head write moves, pgdir, free⟩
    · cases done
      exact ⟨.refl, rfl, rfl⟩

theorem loaduvm_moves (top : Nat)
    (own : stray ∨ Filled u top ∧ addr + sz ≤ top ∧ top ≤ KERNBASE)
    (done : loaduvm u addr ip offset sz = .ok (r, w)) :
    Moves leak stray u w ∧ w.pgdir = u.pgdir ∧ w.kmem.freelist = u.kmem.freelist := by
  unfold loaduvm loaduvmWith at done
  split at done
  · cases done
  · exact loaduvmLoop_moves own done

theorem loaduvm_count
    (done : loaduvm u addr ip offset sz = .ok (r, w)) (x : Nat) : w.count x ≤ u.count x := by
  have moves : Moves True True u w := (loaduvm_moves 0 (.inl trivial) done).1
  exact moves.count_le x

theorem readi_header {b : Lib.Bytes}
    (read : readi ip off PROGHDRSIZE = .ok (r, b)) (whole : r = PROGHDRSIZE) :
    Proghdr.parse b = ip.header off := by
  unfold readi at read
  split at read
  · cases read
  · split at read
    · cases read
      cases whole
    · cases read
      rfl

/-- The way of the segment loop through one header. -/
inductive Segment (ip : Inode) (n off sz : Nat) (u : Uvm) : Bool → Nat → Uvm → Prop where
  | unread : ip.reads off PROGHDRSIZE = false → Segment ip n off sz u false sz u
  | wrong : ip.reads off PROGHDRSIZE = true → (ip.header off).type = ELFPROGLOAD →
      (ip.header off).memsz < (ip.header off).filesz → Segment ip n off sz u false sz u
  | skip {ok : Bool} {sz' : Nat} {w : Uvm} :
      ip.reads off PROGHDRSIZE = true → (ip.header off).type ≠ ELFPROGLOAD →
      loadSegments ip n ((off + PROGHDRSIZE) % 2 ^ 32) sz u = .ok (ok, sz', w) →
      Segment ip n off sz u ok sz' w
  | full {v : Uvm} : loadable ip off → allocuvm u sz (ip.header off).end_ = .ok (0, v) →
      Segment ip n off sz u false 0 v
  | short {v w : Uvm} {sz' : Nat} {r : Int} : loadable ip off →
      allocuvm u sz (ip.header off).end_ = .ok (sz', v) → sz' ≠ 0 →
      loaduvm v (ip.header off).vaddr ip (ip.header off).off (ip.header off).filesz = .ok (r, w) →
      r < 0 → Segment ip n off sz u false sz' w
  | next {v x w : Uvm} {sz₁ sz' : Nat} {r : Int} {ok : Bool} : loadable ip off →
      allocuvm u sz (ip.header off).end_ = .ok (sz₁, v) → sz₁ ≠ 0 →
      loaduvm v (ip.header off).vaddr ip (ip.header off).off (ip.header off).filesz = .ok (r, x) →
      ¬r < 0 → loadSegments ip n ((off + PROGHDRSIZE) % 2 ^ 32) sz₁ x = .ok (ok, sz', w) →
      Segment ip n off sz u ok sz' w

theorem loadSegments_segment
    (done : loadSegments ip (n + 1) off sz u = .ok (ok, sz', w)) :
    Segment ip n off sz u ok sz' w := by
  obtain ⟨⟨r, b⟩, read, rest⟩ := bind_ok.mp done
  have reads := readi_reads read
  dsimp only at rest
  split at rest
  · rename_i part
    cases rest
    exact .unread (Bool.eq_false_iff.mpr fun yes => part (reads.mpr yes))
  rename_i whole
  have whole : r = PROGHDRSIZE := not_not.mp whole
  have yes := reads.mp whole
  rw [readi_header read whole] at rest
  split at rest
  · exact .skip yes ‹_› rest
  rename_i load
  split at rest
  · cases rest
    exact .wrong yes (not_not.mp load) ‹_›
  have able : loadable ip off := ⟨yes, not_not.mp load, by omega⟩
  obtain ⟨⟨sz₁, v⟩, grown, rest⟩ := bind_ok.mp rest
  split at rest
  · rename_i zero
    cases rest
    cases zero
    exact .full able grown
  rename_i served
  obtain ⟨⟨q, x⟩, loaded, rest⟩ := bind_ok.mp rest
  dsimp only at rest
  split at rest
  · cases rest
    exact .short able grown served loaded ‹_›
  · exact .next able grown served loaded ‹_› rest

section Plan
variable {n off sz : Nat} {A : Acct}

theorem loadPlan_none (able : loadable ip off) (plan : A.allocuvm sz (ip.header off).end_ = none) :
    loadPlan ip (n + 1) off sz A = (A.starves sz (ip.header off).end_, none) := by
  rw [loadPlan]
  rw [if_neg (by rw [able.1]; decide), if_neg (not_not.mpr able.2.1),
    if_neg (Nat.not_lt.mpr able.2.2), plan]

theorem loadPlan_some {size : Nat} {B : Acct} (able : loadable ip off)
    (plan : A.allocuvm sz (ip.header off).end_ = some (size, B)) : loadPlan ip (n + 1) off sz A =
      if size = 0 ∨ ¬ip.readsAll (ip.header off).off (ip.header off).filesz then
        (A.starves sz (ip.header off).end_, none)
      else (A.starves sz (ip.header off).end_ ||
        (loadPlan ip n ((off + PROGHDRSIZE) % 2 ^ 32) size B).1,
        (loadPlan ip n ((off + PROGHDRSIZE) % 2 ^ 32) size B).2) := by
  rw [loadPlan]
  rw [if_neg (by rw [able.1]; decide), if_neg (not_not.mpr able.2.1),
    if_neg (Nat.not_lt.mpr able.2.2), plan]

theorem loadPlan_full (able : loadable ip off)
    (grown : allocuvm u sz (ip.header off).end_ = .ok (0, v)) :
    loadPlan ip (n + 1) off sz u.acct = (u.acct.starves sz (ip.header off).end_, none) := by
  have acct := allocuvm_acct grown
  cases plan : u.acct.allocuvm sz (ip.header off).end_ with
  | none => exact loadPlan_none able plan
  | some p =>
    rw [plan] at acct
    rw [loadPlan_some able plan, if_pos (.inl acct.1.symm)]

theorem loadPlan_read (able : loadable ip off)
    (grown : allocuvm u sz (ip.header off).end_ = .ok (sz', v)) (served : sz' ≠ 0) :
    loadPlan ip (n + 1) off sz u.acct =
      if ¬ip.readsAll (ip.header off).off (ip.header off).filesz then
        (u.acct.starves sz (ip.header off).end_, none)
      else (u.acct.starves sz (ip.header off).end_ ||
        (loadPlan ip n ((off + PROGHDRSIZE) % 2 ^ 32) sz' v.acct).1,
        (loadPlan ip n ((off + PROGHDRSIZE) % 2 ^ 32) sz' v.acct).2) := by
  have acct := allocuvm_acct grown
  cases plan : u.acct.allocuvm sz (ip.header off).end_ with
  | none =>
    rw [plan] at acct
    exact absurd acct served
  | some p =>
    obtain ⟨size, B⟩ := p
    rw [plan] at acct
    obtain ⟨rfl, rfl⟩ := acct
    rw [loadPlan_some able plan]
    simp only [served, false_or]

end Plan

theorem allocuvm_lost {r : Nat} (done : allocuvm u oldsz newsz = .ok (r, w))
    (starved : u.acct.starves oldsz newsz = true) :
    ∃ x ∈ u.kmem.freelist, w.count x < u.count x := by
  unfold Acct.starves at starved
  rw [Bool.and_eq_true, decide_eq_true_iff] at starved
  obtain ⟨⟨le, low⟩, starved⟩ := starved
  rcases allocuvm_cases done with ⟨high, -⟩ | ⟨less, -⟩ | ⟨-, -, loop⟩
  · omega
  · omega
  · exact loop.lost low starved

theorem allocuvm_size {r : Nat} (small : oldsz < KERNBASE)
    (done : allocuvm u oldsz newsz = .ok (r, w)) (served : r ≠ 0) :
    r = max oldsz newsz ∧ r < KERNBASE := by
  rcases allocuvm_cases done with ⟨-, zero, -⟩ | ⟨less, old, -⟩ | ⟨le, low, loop⟩
  · exact absurd zero served
  · omega
  · have := loop.result.resolve_left served
    omega

theorem allocuvm_starves {r : Nat} (done : allocuvm u oldsz newsz = .ok (r, w)) :
    Moves (u.acct.starves oldsz newsz = true) stray u w := by
  have moves : Moves _ stray u w := allocuvm_moves done
  rcases allocuvm_cases done with ⟨-, -, rfl⟩ | ⟨-, -, rfl⟩ | ⟨le, -, -⟩
  · exact .refl
  · exact .refl
  · refine moves.mono (fun yes => ?_) id
    unfold Acct.starves
    rw [Bool.and_eq_true, decide_eq_true_iff]
    exact ⟨⟨le, yes.1⟩, yes.2⟩

structure Loading (ip : Inode) (n off sz : Nat) (u : Uvm) (ok : Bool) (sz' : Nat)
    (w : Uvm) : Prop where
  moves : ∀ stray, (stray ∨ segmentsFit ip n off) →
    Moves ((loadPlan ip n off sz u.acct).1 = true) stray u w
  lost : (loadPlan ip n off sz u.acct).1 = true → ∃ x, w.count x < u.count x
  plan : (loadPlan ip n off sz u.acct).2 = if ok then some (sz', w.acct) else none
  guarded : w.pgdir.Guarded
  image : ok = true → sz' < KERNBASE ∧ Filled w sz'

theorem Loading.stop (plan : loadPlan ip n off sz u.acct = (false, none))
    (guarded : u.pgdir.Guarded) : Loading ip n off sz u false sz u := by
  refine ⟨fun _ _ => .refl, fun lost => ?_, by rw [plan]; rfl, guarded, fun no => by cases no⟩
  rw [plan] at lost
  cases lost

theorem segment_moves (stray : Prop) (filled : Filled u sz)
    (small : sz < KERNBASE) (able : loadable ip off)
    (fits : stray ∨ (ip.header off).vaddr + (ip.header off).memsz < 2 ^ 32)
    (grown : allocuvm u sz (ip.header off).end_ = .ok (sz', v)) (served : sz' ≠ 0)
    (loaded : loaduvm v (ip.header off).vaddr ip (ip.header off).off
      (ip.header off).filesz = .ok (r, w)) :
    Moves (u.acct.starves sz (ip.header off).end_ = true) stray u w ∧ w.pgdir = v.pgdir ∧
      w.acct = v.acct ∧ Filled w sz' := by
  obtain ⟨size, low⟩ := allocuvm_size small grown served
  have filled' := allocuvm_filled filled small grown served
  have own : stray ∨ Filled v sz' ∧ (ip.header off).vaddr + (ip.header off).filesz ≤ sz' ∧
      sz' ≤ KERNBASE := by
    refine fits.imp_right fun fits => ⟨filled', ?_, Nat.le_of_lt low⟩
    have := able.2.2
    unfold Proghdr.end_ at size
    omega
  obtain ⟨moves, pgdir, free⟩ := loaduvm_moves sz' own loaded
  refine ⟨(allocuvm_starves grown).trans moves, pgdir, ?_, filled'.same pgdir free⟩
  unfold Uvm.acct
  rw [pgdir, free]

theorem loaduvm_read (loaded : loaduvm v (ip.header off).vaddr ip
    (ip.header off).off (ip.header off).filesz = .ok (r, w)) :
    r < 0 ↔ ¬ip.readsAll (ip.header off).off (ip.header off).filesz :=
  loaduvm_reads (Nat.le_of_lt (Lib.word_lt _ _)) loaded

theorem loadSegments_loading (filled : Filled u sz)
    (small : sz < KERNBASE) (guarded : u.pgdir.Guarded)
    (done : loadSegments ip n off sz u = .ok (ok, sz', w)) : Loading ip n off sz u ok sz' w := by
  induction n generalizing off sz u with
  | zero =>
    cases done
    exact ⟨fun _ _ => .refl, fun no => (by cases no), rfl, guarded, fun _ => ⟨small, filled⟩⟩
  | succ n ih =>
    cases loadSegments_segment done with
    | unread no =>
      have plan : loadPlan ip (n + 1) off sz' w.acct = (false, none) := by
        rw [loadPlan]
        rw [if_pos no]
      exact .stop plan guarded
    | wrong read load less =>
      have plan : loadPlan ip (n + 1) off sz' w.acct = (false, none) := by
        rw [loadPlan]
        rw [if_neg (by rw [read]; decide), if_neg (not_not.mpr load), if_pos less]
      exact .stop plan guarded
    | skip read other rest =>
      have plan : loadPlan ip (n + 1) off sz u.acct =
          loadPlan ip n ((off + PROGHDRSIZE) % 2 ^ 32) sz u.acct := by
        rw [loadPlan]
        rw [if_neg (by rw [read]; decide), if_pos other]
      obtain ⟨moves, lost, result, guarded, image⟩ := ih filled small guarded rest
      rw [← plan] at moves lost result
      exact ⟨fun stray fits => moves stray (fits.imp_right And.right), lost, result, guarded, image⟩
    | full able grown =>
      have plan := loadPlan_full (n := n) able grown
      refine ⟨fun stray _ => ?_, fun lost => ?_, by rw [plan]; rfl, allocuvm_guarded guarded grown,
        fun no => by cases no⟩
      · rw [plan]
        exact allocuvm_starves grown
      · rw [plan] at lost
        obtain ⟨x, -, less⟩ := allocuvm_lost grown lost
        exact ⟨x, less⟩
    | short able grown served loaded failed =>
      have plan := loadPlan_read (n := n) able grown served
      rw [if_pos ((loaduvm_read loaded).mp failed)] at plan
      have here := fun stray fits => segment_moves stray filled small able fits grown served loaded
      refine ⟨fun stray fits => ?_, fun lost => ?_, by rw [plan]; rfl, ?_, fun no => by cases no⟩
      · rw [plan]
        exact (here stray (fits.imp_right fun h => h.1 able.2.1)).1
      · rw [plan] at lost
        obtain ⟨x, -, less⟩ := allocuvm_lost grown lost
        exact ⟨x, lt_of_le_of_lt (loaduvm_count loaded x) less⟩
      · rw [(here True (.inl trivial)).2.1]
        exact allocuvm_guarded guarded grown
    | next able grown served loaded read rest =>
      have plan := loadPlan_read (n := n) able grown served
      have here := fun stray fits => segment_moves stray filled small able fits grown served loaded
      obtain ⟨before, pgdir, acct, filled'⟩ := here True (.inl trivial)
      rw [if_neg fun not => read ((loaduvm_read loaded).mpr not), ← acct] at plan
      obtain ⟨-, low⟩ := allocuvm_size small grown served
      obtain ⟨moves, lost, result, guarded, image⟩ :=
        ih filled' low (by rw [pgdir]; exact allocuvm_guarded guarded grown) rest
      refine ⟨fun stray fits => ?_, fun yes => ?_, by rw [plan]; exact result, guarded, image⟩
      · rw [plan]
        refine ((here stray (fits.imp_right fun h => h.1 able.2.1)).1.mono (fun yes => ?_) id).trans
          ((moves stray (fits.imp_right And.right)).mono (fun yes => ?_) id)
        · rw [yes, Bool.true_or]
        · rw [yes, Bool.or_true]
      · rw [plan] at yes
        rcases Bool.or_eq_true_iff.mp yes with first | later
        · obtain ⟨x, -, less⟩ := allocuvm_lost grown first
          have after := (moves True (.inl trivial)).count_le x
          exact ⟨x, lt_of_le_of_lt (after.trans (loaduvm_count loaded x)) less⟩
        · obtain ⟨x, less⟩ := lost later
          exact ⟨x, lt_of_lt_of_le less (before.count_le x)⟩

end Load

section Copyout
variable {u w : Uvm} {leak stray : Prop}

theorem uva2ka_some {d : PgDir} {uva pa : Nat} (looked : uva2ka d uva = .ok (some pa)) :
    ∃ e, d.entry (uva / PGSIZE) = some e ∧ e.user = true ∧ e.pa = pa := by
  unfold uva2ka at looked
  split at looked
  · cases looked
  · rename_i table
    have same := d.entry_of_table (v := uva / PGSIZE)
      (by simpa [Option.isSome_iff_ne_none, PDX] using table)
    split at looked
    · cases looked
    · rename_i e some
      cases user : e.user with
      | false => simp [user] at looked
      | true =>
        refine ⟨e, same.trans some, user, ?_⟩
        simpa [user] using looked

theorem copyoutLoop_there {p : Lib.Bytes} {va at_ len : Nat} (pos : 0 < len)
    (addr : va < 2 ^ 32) (done : copyoutLoop p n u va at_ len = .ok (r, w)) (whole : ¬r < 0) :
    (u.pgdir.entry ((va + len - 1) % 2 ^ 32 / PGSIZE)).isSome := by
  induction n generalizing u va at_ len with
  | zero => cases done
  | succ n ih =>
    unfold copyoutLoop at done
    rw [if_neg (by omega)] at done
    obtain ⟨found, looked, rest⟩ := bind_ok.mp done
    cases found with
    | none =>
      cases rest
      exact absurd (by decide) whole
    | some pa =>
      obtain ⟨e, entry, -, -⟩ := uva2ka_some looked
      rw [page_rounddown] at entry
      dsimp only at rest
      by_cases last : len ≤ PGSIZE - va % PGSIZE
      · have same : (va + len - 1) % 2 ^ 32 / PGSIZE = va / PGSIZE := by
          simp only [PGSIZE] at last ⊢
          omega
        rw [same, entry]
        rfl
      · rw [if_neg (by omega)] at rest
        have there := ih (by omega) (Nat.mod_lt _ (by decide)) rest
        have same :
            ((PGROUNDDOWN va + PGSIZE) % 2 ^ 32 + (len - (PGSIZE - va % PGSIZE)) - 1) % 2 ^ 32 =
            (va + len - 1) % 2 ^ 32 := by
          unfold PGROUNDDOWN
          simp only [PGSIZE] at last ⊢
          omega
        rw [same] at there
        exact there

theorem copyoutLoop_moves {p : Lib.Bytes} {va at_ len : Nat}
    (own : stray ∨ u.pgdir.Guarded) (done : copyoutLoop p n u va at_ len = .ok (r, w)) :
    Moves leak stray u w ∧ w.pgdir = u.pgdir := by
  induction n generalizing u va at_ len with
  | zero => cases done
  | succ n ih =>
    unfold copyoutLoop at done
    split at done
    · cases done
      exact ⟨.refl, rfl⟩
    · obtain ⟨found, looked, rest⟩ := bind_ok.mp done
      cases found with
      | none =>
        cases rest
        exact ⟨.refl, rfl⟩
      | some pa =>
        obtain ⟨e, entry, user, rfl⟩ := uva2ka_some looked
        have write : ∀ page, Move leak stray u { u with kmem := { u.kmem with
            mem := Function.update u.kmem.mem e.pa page } } := by
          refine fun page => .write page (own.symm.imp (fun guarded => ?_) id)
          refine ⟨_, e, ?_, entry, rfl⟩
          by_contra high
          rw [guarded _ (by omega) e entry] at user
          cases user
        obtain ⟨moves, pgdir⟩ := ih (by exact own) rest
        exact ⟨.head (write _) moves, pgdir⟩

theorem pushArgs_moves {argv : List (List UInt8)} {argc sp sp' : Nat} {ustack ustack' : List Nat}
    (own : stray ∨ u.pgdir.Guarded)
    (done : pushArgs argv argc sp ustack u = .ok (ok, sp', ustack', w)) :
    Moves leak stray u w ∧ w.pgdir = u.pgdir := by
  induction argv generalizing argc sp ustack u with
  | nil =>
    cases done
    exact ⟨.refl, rfl⟩
  | cons arg rest ih =>
    unfold pushArgs at done
    split at done
    · cases done
      exact ⟨.refl, rfl⟩
    · obtain ⟨⟨r, x⟩, copied, done⟩ := bind_ok.mp done
      have first : Moves leak stray u x ∧ x.pgdir = u.pgdir := copyoutLoop_moves own copied
      obtain ⟨first, same⟩ := first
      dsimp only at done
      split at done
      · cases done
        exact ⟨first, same⟩
      · obtain ⟨moves, pgdir⟩ := ih (by rw [same]; exact own) done
        exact ⟨first.trans moves, pgdir.trans same⟩

end Copyout

section Exec

theorem Fs.iput_iget (fs : Fs) (i : Fin NINODE) : (fs.iget i).iput i = fs := by
  simp [Fs.iget, Fs.iput]

def CopiedOut (u w : Uvm) : Prop :=
  (∀ stray, (stray ∨ u.pgdir.Guarded) → Moves False stray u w) ∧ w.pgdir = u.pgdir

theorem pushArgs_there {argv : List (List UInt8)} {sp' : Nat} {ustack' : List Nat}
    (short : ∀ arg ∈ argv, arg.length < 2 ^ 31) (aligned : sz % PGSIZE = 0) (pos : 0 < sz)
    (word : sz < 2 ^ 32) (done : pushArgs argv 0 sz [] u = .ok (true, sp', ustack', w)) :
    argv = [] ∨ (u.pgdir.entry ((sz - 1) / PGSIZE)).isSome := by
  cases argv with
  | nil => exact .inl rfl
  | cons arg rest =>
    right
    unfold pushArgs at done
    rw [if_neg (by decide)] at done
    obtain ⟨⟨r, x⟩, copied, done⟩ := bind_ok.mp done
    dsimp only at done
    split at done
    · cases done
    · rename_i whole
      have there := copyoutLoop_there (by simp) (by omega) copied whole
      have len := short arg List.mem_cons_self
      rw [List.length_append, List.length_singleton] at there
      have same :
          ((sz + 2 ^ 32 - (arg.length + 1)) % 2 ^ 32 / 4 * 4 + (arg.length + 1) - 1) % 2 ^ 32 /
          PGSIZE = (sz - 1) / PGSIZE := by
        simp only [PGSIZE] at aligned ⊢
        omega
      rw [same] at there
      exact there

inductive ArgsEnd (s : Vm) (name : List UInt8) (entry : Nat) (u : Uvm) (sz : Nat)
    (argv : List (List UInt8)) : Int → Vm → Prop where
  | bad {w : Uvm} {k : Kmem} : CopiedOut u w → freevm w = .ok k →
      ArgsEnd s name entry u sz argv (-1) { s with kmem := k }
  | commit {w : Uvm} {k : Kmem} {sp : Nat} : CopiedOut u w →
      (sz % PGSIZE = 0 → 0 < sz → sz < 2 ^ 32 → (∀ arg ∈ argv, arg.length < 2 ^ 31) →
        (u.pgdir.entry ((sz - 1) / PGSIZE)).isSome) →
      freevm ⟨s.proc.pgdir, w.kmem⟩ = .ok k →
      ArgsEnd s name entry u sz argv 0 { s with
        proc := { s.proc with name := name, pgdir := w.pgdir, sz := sz, tf := ⟨entry, sp⟩ }
        kmem := k }

theorem CopiedOut.trans (h : CopiedOut u v) (h' : CopiedOut v w) : CopiedOut u w :=
  ⟨fun stray own => (h.1 stray own).trans (h'.1 stray (by rw [h.2]; exact own)), h'.2.trans h.2⟩

theorem execBad_end {name : List UInt8} {entry : Nat}
    {argv : List (List UInt8)} (copied : CopiedOut u w) (done : execBad s w = .ok (r, t)) :
    ArgsEnd s name entry u sz argv r t := by
  obtain ⟨k, freed, eq⟩ := bind_ok.mp done
  cases eq
  exact .bad copied freed

theorem execArgs_end {name : List UInt8} {entry : Nat}
    {argv : List (List UInt8)} (done : execArgs s name entry u sz argv = .ok (r, t)) :
    ArgsEnd s name entry u sz argv r t := by
  obtain ⟨⟨ok, sp, ustack, v⟩, pushed, rest⟩ := bind_ok.mp done
  have first : CopiedOut u v :=
    ⟨fun stray own => (pushArgs_moves own pushed).1, pushArgs_pgdir pushed⟩
  dsimp only at rest
  split at rest
  · rename_i yes
    subst yes
    obtain ⟨⟨q, w⟩, copied, rest⟩ := bind_ok.mp rest
    have second : CopiedOut v w :=
      ⟨fun stray own => (copyoutLoop_moves own copied).1, copyoutLoop_pgdir copied⟩
    split at rest
    · exact execBad_end (first.trans second) rest
    · rename_i whole
      obtain ⟨k, freed, eq⟩ := bind_ok.mp rest
      cases eq
      refine .commit (first.trans second) (fun aligned pos word short => ?_) freed
      rcases pushArgs_there short aligned pos word pushed with rfl | there
      · cases pushed
        have len : (wordsBytes ([0xffffffff, ([] : List Nat).length,
            (sz + 2 ^ 32 - (([] : List Nat).length + 1) * 4) % 2 ^ 32] ++ [] ++ [0])).length =
              16 := by
          simp [wordsBytes, wordBytes]
        have there :=
          copyoutLoop_there (by rw [len]; decide) (Nat.mod_lt _ (by decide)) copied whole
        rw [len] at there
        have same :
            ((sz + 2 ^ 32 - (3 + ([] : List Nat).length + 1) * 4) % 2 ^ 32 + 16 - 1) % 2 ^ 32 /
            PGSIZE = (sz - 1) / PGSIZE := by
          simp only [PGSIZE, List.length_nil] at aligned ⊢
          omega
        rw [same] at there
        exact there
      · exact there
  · exact execBad_end first rest

def stackStart (sz : Nat) : Nat := PGROUNDUP ((sz + PGSIZE) % 2 ^ 32)

def stackPage (sz : Nat) : Nat :=
  PGROUNDUP ((stackStart sz + PGSIZE * (MAXSTACKPAGES - 1)) % 2 ^ 32)

theorem stackPage_eq (low : sz < KERNBASE) :
    stackPage sz = PGROUNDUP sz + 8 * PGSIZE ∧
      (stackPage sz + PGSIZE) % 2 ^ 32 = PGROUNDUP sz + 9 * PGSIZE := by
  unfold stackPage stackStart PGROUNDUP
  simp only [PGSIZE, KERNBASE, MAXSTACKPAGES] at low ⊢
  omega

def Inode.phnum (ip : Inode) : Nat := word ip.data 44 % 2 ^ 16
def Inode.phoff (ip : Inode) : Nat := word ip.data 28

def Inode.isElf (ip : Inode) : Prop := ELFHDRSIZE ≤ ip.size ∧ word ip.data 0 = ELFMAGIC

/-- The segment loop for the whole file, in a directory that has the kernel's half. -/
def Inode.plan (ip : Inode) (free : Nat) : Bool × Option (Nat × Acct) :=
  loadPlan ip ip.phnum ip.phoff 0 ⟨kernelTab, free - KVMPAGES⟩

def Opens (s : Vm) (path : Path) (i : Fin NINODE) (u : Uvm) : Prop :=
  path.ip = some i ∧ (s.fs.inode i).isElf ∧ setupkvm s.kmem = .ok (some u.pgdir, u.kmem)

/-- How exec ends. Only after the segments are loaded does it write to the process. -/
inductive ExecEnd (s : Vm) (path : Path) (argv : List (List UInt8)) : Int → Vm → Prop where
  | file : (∀ i, path.ip = some i → ¬(s.fs.inode i).isElf) → ExecEnd s path argv (-1) s
  | kvm {i : Fin NINODE} {k : Kmem} : path.ip = some i → (s.fs.inode i).isElf →
      setupkvm s.kmem = .ok (none, k) → ExecEnd s path argv (-1) { s with kmem := k }
  | load {i : Fin NINODE} {u w : Uvm} {sz : Nat} {k : Kmem} : Opens s path i u →
      loadSegments (s.fs.inode i) (s.fs.inode i).phnum (s.fs.inode i).phoff 0 u =
      .ok (false, sz, w) → freevm w = .ok k → ExecEnd s path argv (-1) { s with kmem := k }
  | stack {i : Fin NINODE} {u v w : Uvm} {sz : Nat} {k : Kmem} : Opens s path i u →
      loadSegments (s.fs.inode i) (s.fs.inode i).phnum (s.fs.inode i).phoff 0 u =
      .ok (true, sz, v) →
      allocuvm v (stackPage sz) ((stackPage sz + PGSIZE) % 2 ^ 32) = .ok (0, w) → freevm w = .ok k →
      ExecEnd s path argv (-1)
        { s with proc := { s.proc with sstack := stackStart sz }, kmem := k }
  | args {i : Fin NINODE} {u v w : Uvm} {sz sz' : Nat} {name : List UInt8} {entry : Nat} {r : Int}
      {t : Vm} : Opens s path i u →
      loadSegments (s.fs.inode i) (s.fs.inode i).phnum (s.fs.inode i).phoff 0 u =
      .ok (true, sz, v) →
      allocuvm v (stackPage sz) ((stackPage sz + PGSIZE) % 2 ^ 32) = .ok (sz', w) → sz' ≠ 0 →
      ArgsEnd { s with proc := { s.proc with sstack := stackStart sz } } name entry w sz' argv r t →
      ExecEnd s path argv r t

theorem readi_elf {ip : Inode} {elf : Lib.Bytes}
    (read : readi ip 0 ELFHDRSIZE = .ok (r, elf)) :
    elf = ip.data ∧ (r < ELFHDRSIZE ↔ ip.size < ELFHDRSIZE) := by
  unfold readi at read
  split at read
  · cases read
  · rw [if_neg (by omega)] at read
    cases read
    refine ⟨by funext j; simp, ?_⟩
    split <;> omega

theorem exec_end {path : Path} {argv : List (List UInt8)}
    (done : exec s path argv = .ok (r, t)) : ExecEnd s path argv r t := by
  unfold exec execWith at done
  split at done
  · rename_i none
    cases done
    exact .file fun i found => by rw [none] at found; cases found
  · rename_i i found
    obtain ⟨⟨q, elf⟩, read, rest⟩ := bind_ok.mp done
    obtain ⟨rfl, short⟩ := readi_elf read
    dsimp only at rest
    rw [Fs.iput_iget] at rest
    split at rest
    · rename_i bad
      cases rest
      refine .file fun j found' elf => ?_
      rw [found] at found'
      cases found'
      rcases bad with less | magic
      · exact absurd elf.1 (by rw [short] at less; omega)
      · exact magic elf.2
    rename_i good
    push Not at good
    have isElf : (s.fs.inode i).isElf :=
      ⟨by have := mt short.mpr (not_lt.mpr good.1); omega, good.2⟩
    obtain ⟨⟨d, k⟩, setup, rest⟩ := bind_ok.mp rest
    cases d with
    | none =>
      cases rest
      exact .kvm found isElf setup
    | some d =>
      obtain ⟨⟨ok, sz, v⟩, loaded, rest⟩ := bind_ok.mp rest
      have opens : Opens s path i ⟨d, k⟩ := ⟨found, isElf, setup⟩
      cases ok with
      | false =>
        obtain ⟨k', freed, eq⟩ := bind_ok.mp rest
        cases eq
        exact .load opens loaded freed
      | true =>
        simp only [↓reduceIte] at rest
        obtain ⟨⟨sz', w⟩, grown, rest⟩ := bind_ok.mp rest
        dsimp only at rest
        split at rest
        · rename_i zero
          cases zero
          obtain ⟨k', freed, eq⟩ := bind_ok.mp rest
          cases eq
          exact .stack opens loaded grown freed
        · exact .args opens loaded grown ‹_› (execArgs_end rest)

end Exec

end MmapXv6
