import MmapXv6.Sem.Steps

/-! What holds of the semaphores in every reachable state: the reference counts are the
numbers of open entries, and a wakeup is still to come for every process that sleeps
on a semaphore with a positive value. -/
namespace MmapXv6

open Lib

theorem SemInv.initial : SemInv SemSystem.initial := by
  have noEntry : ∀ p k, SemSystem.initial.entries (p, k) = none := by decide +kernel
  have awake : ∀ p, (SemSystem.initial.proc p).state ≠ .sleeping := by decide +kernel
  have user : ∀ p, SemSystem.initial.pc p = .user := fun _ => rfl
  have noChild : ∀ p np, ¬ Holds (SemSystem.initial.sched.fork p) np := fun p np => not_holds_out np
  refine ⟨initial_inv True, fun i => ?_, fun i positive => ?_, fun q k _ => noEntry q k,
    fun p np held => absurd held (noChild p np), fun p inside => absurd (user p) inside,
    fun p i asleep => absurd asleep.1 (awake p), fun p => ?_⟩
  · rw [card_fibre_none (f := SemSystem.initial.entries) (fun x => noEntry x.1 x.2)]
    rfl
  · cases positive
  · rw [user p]
    trivial

theorem sem_inv {s : SemSystem} (run : s.Reached) : SemInv s :=
  Reaches.invariant SemInv (by rintro _ rfl; exact .initial) (fun s a t h range stepped => by
    rcases h.step a range with ⟨u, hu, inv⟩ | failed
    · exact (Except.ok.inj (hu.symm.trans stepped)) ▸ inv
    · cases failed.symm.trans stepped) run

/-- In every reachable state the references of a semaphore are the entries that point
to it and a referenced semaphore has its index as id. So semget(-1, v) creates only
semaphores that nobody holds, and semclose does not panic. -/
theorem semaphore_references {s : SemSystem} (run : s.Reached) :
    (∀ i, (s.sem i).references = (Finset.univ.filter
        (fun x : Slot × Fin MAXPROCSEM => (s.proc x.1).osemaphore x.2 = some i)).card ∧
      (0 < (s.sem i).references → (s.sem i).id = i)) ∧
    (∀ p k i, semgetPlan (s.view p) (-1) = .created k i → ∀ q j, (s.proc q).osemaphore j ≠ some i) ∧
    ∀ a, a.InRange → s.step a ≠ .error .semclose := by
  have inv := sem_inv run
  refine ⟨fun i => ⟨inv.refs i, inv.ids i⟩, fun p k i plan q j entry => ?_,
    fun a range failed => ?_⟩
  · have fits := semgetPlan_fits (s.view p) (-1)
    rw [plan] at fits
    have zero : (s.sem i).references = 0 := fits.2
    have := inv.references_pos (x := (q, j)) entry
    omega
  · rcases inv.step a range with ⟨t, ok, _⟩ | init
    · cases ok.symm.trans failed
    · cases init.symm.trans failed

/-- The first process creates a semaphore and forks: both hold it. -/
theorem semaphore_references_fork :
    ∃ s : SemSystem, s.Reached ∧ (s.sem 0).references = 2 ∧
      (Finset.univ.filter (fun x : Slot × Fin MAXPROCSEM =>
        (s.proc x.1).osemaphore x.2 = some 0)).card = 2 := by
  have start : SemSystem.initial.Reached := .start rfl
  obtain ⟨s, run, two⟩ := start.exists_of_follow
    [.sched .dispatch, .semget 0 (-1) 1, .sched (.forkClaim 0), .sched (.forkStack 0 true),
      .forkDup 0, .forkDup 0,
      .forkDup 0, .forkDup 0, .forkDup 0, .forkDup 0, .forkDup 0]
    (fun s => (s.sem 0).references = 2) (by decide +kernel)
  have two : (s.sem 0).references = 2 := of_decide_eq_true two
  have count := ((semaphore_references run).1 0).1
  exact ⟨s, run, two, by exact_mod_cast count.symm.trans two⟩

/-- Nobody sleeps on a semaphore with a positive value unless some process inside semup
has incremented it and not yet called wakeup. -/
theorem no_lost_wakeup {s : SemSystem} (run : s.Reached) {p : Slot} {i : SemId}
    (asleep : (s.proc p).state = .sleeping) (on : (s.proc p).chan = some (.sem i))
    (positive : 0 < (s.sem i).value) : ∃ q, s.pc q = .upWake i :=
  (sem_inv run).wakeup_of_sleeper ⟨asleep, on⟩ positive

/-- The parent sleeps in semdown, the child has just incremented the value. -/
theorem no_lost_wakeup_between :
    ∃ s : SemSystem, s.Reached ∧ (s.proc 0).state = .sleeping ∧ (s.proc 0).chan = some (.sem 0) ∧
      0 < (s.sem 0).value ∧ ∃ q, s.pc q = .upWake 0 := by
  have start : SemSystem.initial.Reached := .start rfl
  obtain ⟨s, run, last⟩ := start.exists_of_follow
    [.sched .dispatch, .semget 0 (-1) 0, .sched (.forkClaim 0), .sched (.forkStack 0 true),
      .forkDup 0, .forkDup 0,
      .forkDup 0, .forkDup 0, .forkDup 0, .forkDup 0, .forkDup 0, .semdown 0 0, .downTest 0,
        .sleepRelease 0,
      .sleepSwitch 0, .sched .dispatch, .semup 1 0]
    (fun s => (s.proc 0).state = .sleeping ∧ (s.proc 0).chan = some (.sem 0) ∧ 0 < (s.sem 0).value)
    (by decide +kernel)
  simp only [decide_eq_true_eq] at last
  exact ⟨s, run, last.1, last.2.1, last.2.2, no_lost_wakeup run last.1 last.2.1 last.2.2⟩

end MmapXv6
