import MmapXv6.Log.Reserve
import MmapXv6.Log.Crash

/-! Group commit on the disk: the operations of a group are recovered together or not. -/
namespace MmapXv6

open Lib

variable {P : Type} [DecidableEq P] {L : LogArea} {s : LogState P} {size cap : Nat} {d : Disk}

/-- However the operations of a group were interleaved: when their commit loses power after
any number k of its block writes, recoveries that may be cut themselves leave the sectors of
all these operations as they were cached, or all as before, and no other sector changed. -/
theorem group_crash_atomic (run : s.Reached size fun s a => WithinLimit s a ∧ AdmitsBelow cap s a)
    (fits : cap ≤ LOGSIZE) (room : cap < L.size) (home : ∀ x ∈ s.lh, ¬L.Inside x ∧ x < 2 ^ 32)
    {p : P} (commits : s.pc p = .commit) (booted : Booted L d) (view : Disk) (k : Nat)
    (ks : List Nat) : ∃ e, reboots L (cutCommit L s.lh d view k) ks = .ok e ∧
      ((∀ x, s.Logged x → e x = view x) ∨ ∀ x, s.Logged x → e x = d x) ∧
      ∀ x, ¬L.Inside x → ¬s.Logged x → e x = d x := by
  have inv := group_inv run
  have short := header_le_of_admissions run
  simp only [← inv.logged_of_commit (p := p) (by rw [commits]; rfl)]
  have ends : ∃ e, reboots L (cutCommit L s.lh d view k) ks = .ok e ∧
      (Settled L (installed s.lh view d) e ∨ Settled L d e) := by
    by_cases empty : s.lh = []
    · have settled : Settled L d (cutCommit L s.lh d view k) := by
        simpa [empty, cutCommit, commit, applyWrites] using ⟨booted.clear, fun _ _ => rfl⟩
      exact (settled.reboots (by omega) ks).imp fun e => And.imp_right .inr
    · have txn : Transaction L s.lh :=
        ⟨inv.distinct, by omega, by omega, fun x mem => (home x mem).1,
        fun x mem => (home x mem).2, List.length_pos_of_ne_nil empty⟩
      rcases cutCommit_cases view txn booted.clear k with ⟨-, settled⟩ | ⟨-, committed | settled⟩
      · exact (settled.reboots (by omega) ks).imp fun e => And.imp_right .inr
      · exact (committed.reboots txn ks).imp fun e => And.imp_right .inl
      · exact (settled.reboots (by omega) ks).imp fun e => And.imp_right .inl
  obtain ⟨e, recovered, done | done⟩ := ends
  · refine ⟨e, recovered, .inl fun x mem => ?_, fun x out other => ?_⟩
    · rw [done.same x (home x mem).1, installed_mem mem]
    · rw [done.same x out, installed_not_mem other]
  · exact ⟨e, recovered, .inr fun x mem => done.same x (home x mem).1,
      fun x out _ => done.same x out⟩

/-- A disk of zeros after a boot. -/
def bootedDisk : Disk := (writeHead ⟨994, 30⟩ [] (.cold fun _ _ => 0)).disk

/-- Two operations that overlap and write 1 everywhere. A cut before the header is written
leaves both as before, and a cut after it neither. -/
theorem group_crash_atomic_two : ∃ s : LogState Bool, s.begun.length = 2 ∧ s.Logged 7 ∧ s.Logged 8 ∧
    ∃ e f, reboots ⟨994, 30⟩ (cutCommit ⟨994, 30⟩ s.lh bootedDisk (fun _ _ => 1) 2) [0] = .ok e ∧
      reboots ⟨994, 30⟩ (cutCommit ⟨994, 30⟩ s.lh bootedDisk (fun _ _ => 1) 3) [0] = .ok f ∧
      ∀ x, s.Logged x → e x = bootedDisk x ∧ f x = fun _ => 1 := by
  have start : ({} : LogState Bool).Reached 30 fun s a => WithinLimit s a ∧ AdmitsBelow 20 s a :=
    .start rfl
  obtain ⟨s, run, last⟩ := start.exists_of_follow (.beginOp true :: .beginOp false ::
    (logCalls true [7] ++ logCalls false [8] ++ [.endOp true, .endOp false]))
    (fun s => s.pc false = .commit ∧ s.begun.length = 2 ∧ s.lh = [7, 8]) (by decide +kernel)
  obtain ⟨commits, two, lh⟩ := of_decide_eq_true last
  have logged := (group_inv run).logged_of_commit (p := false) (by rw [commits]; rfl)
  have seven : s.Logged 7 := (logged 7).mp (by simp [lh])
  have boot : reboots ⟨994, 30⟩ (fun _ _ => 0) [] = .ok bootedDisk :=
    reboots_ok rfl (recoverFromLog_ok (readHead_empty (by decide)))
  have atomic := group_crash_atomic run (by decide) (by decide)
    (by simp [lh, LogArea.Inside]) commits (.recovered boot) fun _ _ => 1
  obtain ⟨e, before, old, -⟩ := atomic 2 [0]
  obtain ⟨f, after, new, -⟩ := atomic 3 [0]
  refine ⟨s, two, seven, (logged 8).mp (by simp [lh]), e, f, before, after, fun x mem =>
    ⟨old.resolve_left (fun all => ?_) x mem, new.resolve_right (fun all => ?_) x mem⟩⟩
  · rw [lh] at before
    have cut := congrArg (Except.map (· 7 0)) before
    rw [Except.map, all 7 seven] at cut
    exact absurd cut (by decide +kernel)
  · rw [lh] at after
    have cut := congrArg (Except.map (· 7 0)) after
    rw [Except.map, all 7 seven] at cut
    exact absurd cut (by decide +kernel)

end MmapXv6
