import MmapXv6.Vm.Climb
import MmapXv6.Vm.Confined

/-! The size of a process against KERNBASE, over any number of exec, fork, sbrk, mmap and
munmap calls. Only mmap moves sz without a check, and munmap never moves it back, so the
bound is a matter of how often a process maps files. -/
namespace MmapXv6

open Lib (bind_ok Reaches)

inductive SizeAct where
  | exec (path : Path) (argv : List (List UInt8))
  | space (a : SpaceAct)

def sizeStep (s : Vm) : SizeAct → Except Panic Vm
  | .exec path argv => do .ok (← exec s path argv).2
  | .space a => spaceStep s a

def SizeAct.Legal : SizeAct → Prop
  | .exec _ _ => True
  | .space a => a.Legal

/-- A mapping ends at or below KERNBASE, and so does what munmap frees. -/
def SpaceAct.Fits (s : Vm) : SpaceAct → Prop
  | .mmap fd addr => MapsFile s fd addr fun size =>
      PGROUNDUP ((s.proc.sz + size) % 2 ^ 32) ≤ KERNBASE
  | .munmap addr => UnmapsUser s.proc addr
  | _ => True

/-- Nor does the loader store outside the image that it makes. -/
def SizeAct.Fits (s : Vm) : SizeAct → Prop
  | .exec path _ => StaysInside s path
  | .space a => a.Fits s

instance SpaceAct.decidableFits (s : Vm) : (a : SpaceAct) → Decidable (a.Fits s)
  | .mmap fd addr => inferInstanceAs (Decidable (MapsFile s fd addr fun size =>
      PGROUNDUP ((s.proc.sz + size) % 2 ^ 32) ≤ KERNBASE))
  | .munmap addr => inferInstanceAs (Decidable (UnmapsUser s.proc addr))
  | .sbrk _ | .fork _ | .load _ | .store _ _ | .outside .. => .isTrue trivial

section Size
variable {s t : Vm}

theorem execBad_proc {u : Uvm} {r : Int} (done : execBad s u = .ok (r, t)) : t.proc = s.proc := by
  obtain ⟨k, -, eq⟩ := bind_ok.mp done
  cases eq
  rfl

theorem execArgs_failed {name : List UInt8} {entry : Nat} {u : Uvm} {sz : Nat}
    {argv : List (List UInt8)} {r : Int} (failed : r ≠ 0)
    (done : execArgs s name entry u sz argv = .ok (r, t)) : t.proc = s.proc := by
  obtain ⟨⟨ok, sp, ustack, w⟩, -, rest⟩ := bind_ok.mp done
  dsimp only at rest
  split at rest
  · obtain ⟨⟨q, w'⟩, -, rest⟩ := bind_ok.mp rest
    split at rest
    · exact execBad_proc rest
    · obtain ⟨k, -, eq⟩ := bind_ok.mp rest
      cases eq
      exact absurd rfl failed
  · exact execBad_proc rest

theorem exec_failed {path : Path} {argv : List (List UInt8)} {r : Int}
    (failed : r ≠ 0) (done : exec s path argv = .ok (r, t)) : t.proc.sz = s.proc.sz := by
  unfold exec execWith at done
  split at done
  · cases done
    rfl
  · obtain ⟨⟨q, elf⟩, -, rest⟩ := bind_ok.mp done
    dsimp only at rest
    split at rest
    · cases rest
      rfl
    obtain ⟨⟨d, k⟩, -, rest⟩ := bind_ok.mp rest
    cases d with
    | none =>
      cases rest
      rfl
    | some d =>
      obtain ⟨⟨ok, sz, u⟩, -, rest⟩ := bind_ok.mp rest
      cases ok with
      | false => rw [execBad_proc rest]
      | true =>
        obtain ⟨⟨x, w⟩, -, rest⟩ := bind_ok.mp rest
        dsimp only at rest
        split at rest
        · rw [execBad_proc rest]
        · rw [execArgs_failed failed rest]

theorem exec_bounded {path : Path} {argv : List (List UInt8)} {r : Int}
    (before : s.proc.sz ≤ KERNBASE) (done : exec s path argv = .ok (r, t)) :
    t.proc.sz ≤ KERNBASE := by
  by_cases failed : r = 0
  · subst failed
    exact Nat.le_of_lt (exec_image done).1.low
  · rw [exec_failed failed done]
    exact before

theorem mmap_size {fd : Int} {addr : Nat} {r : Int} (before : s.proc.sz ≤ KERNBASE)
    (user : addr + 4 ≤ KERNBASE) (done : mmap s fd addr = .ok (r, t)) :
    t.proc.sz ≤ KERNBASE ↔ (SpaceAct.mmap fd addr).Fits s := by
  unfold mmap at done
  unfold SpaceAct.Fits MapsFile
  split at done
  · rename_i none
    cases done
    simp [none, before, user]
  · rename_i f opened
    split at done
    · rename_i full
      cases done
      simp [full, before, user]
    · rename_i i found
      split at done
      · cases done
      · rename_i ip inode
        obtain ⟨w, stored, eq⟩ := bind_ok.mp done
        cases eq
        rw [(Wider.storeWord stored).sz]
        simp [opened, inode, found, user, Vm.addMmap]

theorem munmap_size {addr : Nat} {r : Int} (done : munmap s addr = .ok (r, t)) :
    t.proc.sz = s.proc.sz := by
  unfold munmap at done
  split at done
  · cases done
    rfl
  · split at done
    · cases done
      rfl
    · obtain ⟨t, unmapped, eq⟩ := bind_ok.mp done
      cases eq
      obtain ⟨w, _, u, -, proc, -, -, rfl⟩ := munmapAt_cases unmapped
      change w.proc.sz = s.proc.sz
      rw [proc]

theorem growproc_bounded {n r : Int} (before : s.proc.sz ≤ KERNBASE)
    (done : growproc s n = .ok (r, t)) : t.proc.sz ≤ KERNBASE := by
  have finish : ∀ x : Nat × Uvm, x.1 ≤ KERNBASE → (s.resized x).proc.sz ≤ KERNBASE := by
    intro x le
    unfold Vm.resized
    split
    · exact before
    · exact le
  cases growproc_resizing done with
  | same => exact before
  | @grow r _ grown =>
    apply finish
    obtain ⟨sz, u⟩ := r
    rcases allocuvm_cases grown with ⟨-, rfl, -⟩ | ⟨-, rfl, -⟩ | ⟨-, low, loop⟩
    · exact Nat.zero_le _
    · exact before
    · rcases loop.result with rfl | rfl
      · exact Nat.zero_le _
      · exact Nat.le_of_lt low
  | @shrink r _ freed =>
    apply finish
    obtain ⟨sz, u⟩ := r
    rcases deallocuvm_cases before freed with ⟨-, rfl, -⟩ | ⟨less, rfl, -⟩
    · exact before
    · omega

theorem fork_size {slot : Proc} {child : Option Proc} (done : fork s slot = .ok (child, t)) :
    t.proc = s.proc ∧ ∀ c, child = some c → c.sz = s.proc.sz := by
  unfold fork at done
  split at done
  · cases done
    exact ⟨rfl, fun _ h => nomatch h⟩
  · obtain ⟨⟨d, k⟩, -, done⟩ := bind_ok.mp done
    cases d with
    | none =>
      obtain ⟨k, -, done⟩ := bind_ok.mp done
      cases done
      exact ⟨rfl, fun _ h => nomatch h⟩
    | some d =>
      cases done
      refine ⟨rfl, fun c made => ?_⟩
      cases made
      rfl

theorem size_step {a : SizeAct} (before : s.proc.sz ≤ KERNBASE) (legal : a.Legal) (fits : a.Fits s)
    (done : sizeStep s a = .ok t) : t.proc.sz ≤ KERNBASE := by
  cases a with
  | exec path argv =>
    obtain ⟨x, replaced, eq⟩ := bind_ok.mp done
    cases eq
    exact exec_bounded before replaced
  | space a =>
    cases a with
    | mmap fd addr =>
      obtain ⟨x, mapped, eq⟩ := bind_ok.mp done
      cases eq
      exact (mmap_size before fits.1 mapped).mpr fits
    | munmap addr =>
      obtain ⟨x, unmapped, eq⟩ := bind_ok.mp done
      cases eq
      rw [munmap_size unmapped]
      exact before
    | sbrk n =>
      obtain ⟨x, grown, eq⟩ := bind_ok.mp done
      cases eq
      exact growproc_bounded before grown
    | fork slot =>
      obtain ⟨⟨child, w⟩, forked, eq⟩ := bind_ok.mp done
      obtain ⟨parent, sized⟩ := fork_size forked
      cases child with
      | none =>
        cases eq
        rw [parent]
        exact before
      | some c =>
        cases eq
        exact (sized c rfl).symm ▸ before
    | load a =>
      obtain ⟨x, loaded, eq⟩ := bind_ok.mp done
      cases eq
      rw [(Wider.load legal loaded).sz]
      exact before
    | store a b =>
      obtain ⟨x, stored, eq⟩ := bind_ok.mp done
      cases eq
      rw [(Wider.store legal stored).sz]
      exact before
    | outside kmem fs ofile =>
      cases done
      exact before

end Size

theorem spaceRun_sized {allowed : Vm → SpaceAct → Prop} {allowed' : Vm → SizeAct → Prop}
    {start : Vm → Prop} {t : Vm} (same : ∀ s a, allowed s a → allowed' s (.space a))
    (run : Reaches spaceStep allowed start t) : Reaches sizeStep allowed' start t := by
  induction run with
  | start started => exact .start started
  | @step s t a _ ok done ih => exact ih.step (a := .space a) (same s a ok) done

/-- In a run whose mappings all end at or below KERNBASE the size never exceeds
KERNBASE, and a mapping that ends above makes it exceed KERNBASE. -/
theorem size_bounded {s : Vm}
    (run : Reaches sizeStep (fun s a => a.Legal ∧ a.Fits s) (fun s => s.proc.sz ≤ KERNBASE) s) :
    s.proc.sz ≤ KERNBASE ∧ ∀ fd addr r t, addr + 4 ≤ KERNBASE → mmap s fd addr = .ok (r, t) →
      (t.proc.sz ≤ KERNBASE ↔ (SizeAct.space (.mmap fd addr)).Fits s) := by
  have bounded : s.proc.sz ≤ KERNBASE :=
    run.invariant (fun s => s.proc.sz ≤ KERNBASE) (fun _ h => h)
      fun _ _ _ before allowed done => size_step before allowed.1 allowed.2 done
  exact ⟨bounded, fun fd addr r t user done => mmap_size bounded user done⟩

/-- Two mappings, a growth of the heap and a munmap. -/
theorem size_bounded_heap : ∃ t : Vm, t.proc.sz ≤ KERNBASE ∧ t.proc.sz = 0xE000 := by
  have start : Reaches spaceStep (fun s a => a.Legal ∧ a.Fits s) (fun s => s.proc.sz ≤ KERNBASE)
      image := .start (by decide)
  obtain ⟨t, run, size⟩ := start.exists_of_follow [.mmap 0 0x9FF0, .mmap 0 0x9FF0, .sbrk 8192,
    .munmap 0xA000] (fun t => t.proc.sz == 0xE000) (by decide +kernel)
  exact ⟨t, (size_bounded (spaceRun_sized (fun _ _ ok => ok) run)).1, by simpa using size⟩

/-- The process of image on a machine with 0xC000 free pages of memory. -/
def largeImage : Vm := { image with kmem := { freelist := List.range' 0x1000 0xC000 } }

theorem largeImage_stage : Stage largeImage 10 10 0 0 0xC000 := by
  have started : Started largeImage := image_started
  refine ⟨⟨rfl, by decide, rfl, rfl, rfl, ⟨userPte 0x309, rfl, rfl⟩, by decide, fun f free => ?_,
    fun v user e there => ?_⟩, .start started, fun v low user => ?_, fun i => ?_, ?_⟩
  · obtain ⟨low, high⟩ := List.mem_range'_1.mp free
    change 0x115 ≤ f ∧ f < 0xE000
    omega
  · by_cases other : v ≠ 0 ∧ v ≠ 9
    · cases (imagePgdir_user user other).symm.trans there
    · obtain rfl | rfl : v = 0 ∨ v = 9 := by omega
      · cases (show imagePgdir.entry 0 = some (userPte 0x300) from rfl).symm.trans there
        decide
      · cases (show imagePgdir.entry 9 = some (userPte 0x309) from rfl).symm.trans there
        decide
  · exact imagePgdir_user user (by omega)
  · exact ⟨fun inside => absurd inside (by omega), fun _ => rfl⟩
  · change _ ≤ (List.range' 0x1000 0xC000).length
    rw [List.length_range']

/-- Mapping and unmapping the file 262126 times moves sz to just below 2^30. Five more
mappings stay. Five times the process then grows by 43691 pages and unmaps one of them,
which frees the new pages, and it grows a sixth time. -/
theorem largeImage_climbs : ∃ t, Reaches spaceStep (fun _ a => a.Legal) Started t ∧
    Climber t 524287 ∧ ∀ i, (t.proc.ommap i).pfile = none := by
  obtain ⟨s, base⟩ := largeImage_stage.cycles 262126 (by decide)
  obtain ⟨t, mapped⟩ := Stage.pushes (N := 262136) base (by decide) 5 (by decide)
  have tabled : Stage.Tabled t 262136 262141 := by
    intro v low high
    right
    simp only [NPTENTRIES]
    omega
  have stocked : Stage t 262141 262136 0 5 (43735 + 5 * (43691 / 1024 + 2)) :=
    mapped.weaken (by decide)
  obtain ⟨w, top, -⟩ := Stage.laps stocked tabled (by decide) (by decide) (by decide)
    (by decide) (by decide) (by decide) (by decide) 5 (by decide)
  have bare : ∀ v, 262141 + 5 * 43691 ≤ v → v < UPAGES → w.entry v = none :=
    fun v low => top.bare v (by omega)
  obtain ⟨x, grown, climber, ommap, -⟩ :=
    top.sbrk (d := 43691) bare (by decide) (by decide) top.free
  refine ⟨x, top.run.step (by decide) grown, climber, fun i => ?_⟩
  rw [ommap]
  exact (top.slots i).2 (.inl i.isLt)

/-- Two more mappings take sz over KERNBASE. -/
theorem size_exceeds_kernbase :
    ∃ t, Reaches sizeStep (fun _ a => a.Legal) Started t ∧ KERNBASE < t.proc.sz := by
  obtain ⟨s, run, climber, unused⟩ := largeImage_climbs
  have slot : freeMmap s.proc.ommap = some 0 :=
    find?_finRange (by simp [unused 0]) fun j less => absurd less (Fin.not_lt_zero j)
  obtain ⟨t, done, top, ommap, -⟩ := climber.mmap slot (by decide)
  have slot' : freeMmap t.proc.ommap = some 1 := by
    rw [ommap]
    apply find?_finRange
    · rw [Function.update_of_ne (by decide), unused 1]
      rfl
    · intro j less
      obtain rfl : j = 0 := Fin.ext (Nat.lt_one_iff.mp less)
      simp
  obtain ⟨w, done', beyond, -, -⟩ := top.mmap slot' (by decide)
  refine ⟨w, spaceRun_sized (fun _ _ ok => ok)
    ((run.step (by decide) done).step (by decide) done'), ?_⟩
  rw [beyond.size]
  decide

end MmapXv6
