import MmapXv6.Kern.Calls
import MmapXv6.Lib.Post

/-! What the lock operations guarantee. A function that gives back what it takes is
described by how it may leave the kernel (Drift) and by the two failures this part is
about: waiting for an inode of one's own, excluded under p, and entering sched with a
second spinlock, excluded under q. -/
namespace MmapXv6

open Lib

def Fails (p q : Prop) (e : Panic) : Prop :=
  (p → e ≠ .selfDeadlock) ∧ (q → e ≠ .schedLocks)

/-- The world went on; the process, its locks and its files are as they were. -/
def Drift (k k' : Kern) : Prop :=
  ∃ world waits logged, k' = { k with world := world, waits := waits, logged := logged }

theorem Drift.refl (k : Kern) : Drift k k := ⟨_, _, _, rfl⟩

theorem Drift.trans {k k' k'' : Kern} (h : Drift k k') (h' : Drift k' k'') : Drift k k'' := by
  obtain ⟨w, ws, n, rfl⟩ := h
  obtain ⟨w', ws', n', rfl⟩ := h'
  exact ⟨w', ws', n', rfl⟩

theorem Drift.spin {k k' : Kern} (h : Drift k k') : k'.spin = k.spin := by
  obtain ⟨_, _, _, rfl⟩ := h
  rfl

theorem Drift.busy {k k' : Kern} (h : Drift k k') : k'.busy = k.busy := by
  obtain ⟨_, _, _, rfl⟩ := h
  rfl

theorem Drift.vm {k k' : Kern} (h : Drift k k') : k'.vm = k.vm := by
  obtain ⟨_, _, _, rfl⟩ := h
  rfl

section Locks
variable {p q : Prop} {k : Kern} {lk : Spinlock} {base : List Spinlock}

theorem onlyIf_ensures (c : Prop) [Decidable c] {f : Kern → Except Panic Kern} {post : Kern → Prop}
    (yes : c → Ensures (f k) post (Fails p q)) (no : post k) :
    Ensures (k.onlyIf c f) post (Fails p q) := by
  unfold Kern.onlyIf
  split
  · rename_i holds
    exact yes holds
  · exact no

theorem acquire_ensures (lk : Spinlock) (k : Kern) :
    Ensures (k.acquire lk) (· = { k with spin := lk :: k.spin }) (Fails p q) := by
  unfold Kern.acquire
  split
  · exact ⟨fun _ => by decide, fun _ => by decide⟩
  · exact rfl

theorem release_ensures (lk : Spinlock) (k : Kern) :
    Ensures (k.release lk) (· = { k with spin := k.spin.erase lk }) (Fails p q) := by
  unfold Kern.release
  split
  · exact rfl
  · exact ⟨fun _ => by decide, fun _ => by decide⟩

theorem release_top (held : k.spin = lk :: base) :
    Ensures (k.release lk) (· = { k with spin := base }) (Fails p q) := by
  apply (release_ensures lk k).mono
  rintro _ rfl
  rw [held, List.erase_cons_head]

theorem wakeup_ensures (k : Kern) : Ensures k.wakeup (· = k) (Fails p q) := by
  apply (acquire_ensures .ptable k).bind
  rintro _ rfl
  exact release_top rfl

theorem withLock_ensures (lk : Spinlock) (k : Kern) :
    Ensures (k.withLock lk) (· = k) (Fails p q) := by
  apply (acquire_ensures lk k).bind
  rintro _ rfl
  exact release_top rfl

theorem sched_ensures (alone : q → k.spin.length = 1) :
    Ensures k.sched (· = k) (Fails p q) := by
  unfold Kern.sched
  split
  · exact ⟨fun _ => by decide, fun _ => by decide⟩
  · split
    · rename_i more
      exact ⟨fun _ => by decide, fun hq => absurd (alone hq) more⟩
    · exact rfl

theorem sleep_ensures (held : k.spin = lk :: base) (alone : q → base = []) (other : lk ≠ .ptable) :
    Ensures (k.sleep lk) (· = k) (Fails p q) := by
  unfold Kern.sleep
  rw [if_neg other]
  apply (acquire_ensures .ptable k).bind
  rintro _ rfl
  apply (release_ensures lk _).bind
  rintro _ rfl
  have left : (.ptable :: k.spin : List Spinlock).erase lk = .ptable :: base := by
    rw [held, List.erase_cons_tail (by simpa using Ne.symm other), List.erase_cons_head]
  apply (sched_ensures (fun hq => ?_)).bind
  · rintro _ rfl
    apply (release_top left).bind
    rintro _ rfl
    apply (acquire_ensures lk _).mono
    rintro _ rfl
    rw [← held]
  · simp only [left, alone hq, List.length_singleton]

theorem waitLoop_ensures {k : Kern} (other : lk ≠ .ptable) (alone : q → base = [])
    (waits : List (Option World)) (held : k.spin = lk :: base) :
    Ensures (k.waitLoop lk waits) (Drift k) (Fails p q) := by
  induction waits generalizing k with
  | nil => exact .refl k
  | cons wake rest ih =>
    cases wake with
    | none => exact ⟨_, _, _, rfl⟩
    | some w =>
      apply (sleep_ensures held alone other).bind
      rintro k rfl
      apply (ih (k := { k with world := w, waits := rest }) held).mono
      intro k' drift
      exact Drift.trans ⟨w, rest, k.logged, rfl⟩ drift

theorem locked_wait_ensures (other : lk ≠ .ptable) (quiet : q → k.spin = []) :
    Ensures (do
      let k ← k.acquire lk
      let k ← k.waitWhile lk
      k.release lk) (Drift k) (Fails p q) := by
  apply (acquire_ensures lk k).bind
  rintro _ rfl
  apply (waitLoop_ensures (k := { k with spin := lk :: k.spin }) other quiet _ rfl).bind
  rintro _ ⟨w, ws, n, rfl⟩
  apply (release_top rfl).mono
  rintro _ rfl
  exact ⟨w, ws, n, rfl⟩

theorem bread_ensures (quiet : q → k.spin = []) : Ensures k.bread (Drift k) (Fails p q) := by
  apply (acquire_ensures .bcache k).bind
  rintro _ rfl
  apply (waitLoop_ensures (k := { k with spin := .bcache :: k.spin }) (by decide) quiet _ rfl).bind
  rintro _ ⟨w, ws, n, rfl⟩
  apply (release_top rfl).bind
  rintro _ rfl
  have cached : Drift k { k with world := w, waits := ws, logged := n } := ⟨w, ws, n, rfl⟩
  split
  · exact (locked_wait_ensures (k := { k with world := w, waits := _, logged := n })
      (show Spinlock.ide ≠ .ptable by decide) quiet).mono fun _ drift => cached.trans drift
  · exact ⟨_, _, _, rfl⟩
  · exact cached

theorem brelse_ensures (k : Kern) : Ensures k.brelse (· = k) (Fails p q) := by
  apply (acquire_ensures .bcache k).bind
  rintro _ rfl
  apply (wakeup_ensures _).bind
  rintro _ rfl
  exact release_top rfl

theorem useBlock_ensures (quiet : q → k.spin = []) : Ensures k.useBlock (Drift k) (Fails p q) := by
  apply (bread_ensures quiet).bind
  intro k' drift
  apply (brelse_ensures k').mono
  rintro _ rfl
  exact drift

theorem logWrite_ensures (k : Kern) : Ensures k.logWrite (Drift k) (Fails p q) := by
  apply (withLock_ensures .log _).mono
  rintro _ rfl
  exact ⟨_, _, _, rfl⟩

theorem beginOp_ensures (quiet : q → k.spin = []) : Ensures k.beginOp (Drift k) (Fails p q) :=
  locked_wait_ensures (by decide) quiet

theorem endOp_ensures (quiet : q → k.spin = []) : Ensures k.endOp (Drift k) (Fails p q) := by
  have note : ∀ k : Kern, Ensures (do
      let k ← k.acquire .log
      let k ← k.wakeup
      k.release .log) (· = k) (Fails p q) := by
    intro k
    apply (acquire_ensures .log k).bind
    rintro _ rfl
    apply (wakeup_ensures _).bind
    rintro _ rfl
    exact release_top rfl
  apply (acquire_ensures .log k).bind
  rintro _ rfl
  apply (wakeup_ensures _).bind
  rintro _ rfl
  apply (release_top rfl).bind
  rintro _ rfl
  apply (Ensures.foldlM (Drift k) _ (fun k' _ _ drift => ?_) (.refl k)).bind
  · intro k' drift
    apply (note { k' with logged := 0 }).mono
    rintro _ rfl
    exact drift.trans ⟨_, _, _, rfl⟩
  · apply (useBlock_ensures fun hq => drift.spin.trans (quiet hq)).mono
    intro _ more
    exact drift.trans more

theorem ilock_ensures {ip : Fin NINODE} (free : p → ip ∉ k.busy) (quiet : q → k.spin = []) :
    Ensures (k.ilock ip) (Drift { k with busy := ip :: k.busy }) (Fails p q) := by
  apply (acquire_ensures .icache k).bind
  rintro _ rfl
  split
  · rename_i own
    apply (sleep_ensures (show _ = .icache :: k.spin from rfl) quiet (by decide)).bind
    intro _ _
    exact ⟨fun hp => absurd own (free hp), fun _ => by decide⟩
  · apply (waitLoop_ensures (k := { k with spin := .icache :: k.spin })
      (by decide) quiet _ rfl).bind
    rintro _ ⟨w, ws, n, rfl⟩
    apply (release_top rfl).mono
    rintro _ rfl
    exact ⟨w, ws, n, rfl⟩

theorem iunlock_ensures (ip : Fin NINODE) (k : Kern) :
    Ensures (k.iunlock ip) (· = { k with busy := k.busy.erase ip }) (Fails p q) := by
  unfold Kern.iunlock
  split
  · exact ⟨fun _ => by decide, fun _ => by decide⟩
  · apply (acquire_ensures .icache k).bind
    rintro _ rfl
    apply (wakeup_ensures _).bind
    rintro _ rfl
    exact release_top rfl

theorem waitUntil_ensures {blocked giveUp : Kern → Bool} {notify : Bool} (other : lk ≠ .ptable)
    (alone : q → base = []) (waits : List (Option World)) {k : Kern} (held : k.spin = lk :: base) :
    Ensures (Kern.waitUntil lk blocked giveUp notify waits k) (fun r => Drift k r.2)
      (Fails p q) := by
  induction waits generalizing k with
  | nil =>
    unfold Kern.waitUntil
    split
    · split
      · exact .refl k
      · exact ⟨fun _ => by decide, fun _ => by decide⟩
    · exact .refl k
  | cons wake rest ih =>
    unfold Kern.waitUntil
    split
    · split
      · exact .refl k
      · cases wake with
        | none => exact ⟨fun _ => by decide, fun _ => by decide⟩
        | some w =>
          apply (onlyIf_ensures _ (fun _ => wakeup_ensures k) rfl).bind
          rintro k rfl
          apply (sleep_ensures held alone other).bind
          rintro k rfl
          apply (ih (k := { k with world := w, waits := rest }) held).mono
          intro r drift
          exact Drift.trans ⟨w, rest, k.logged, rfl⟩ drift
    · exact .refl k

theorem balloc_ensures (quiet : q → k.spin = []) : Ensures k.balloc (Drift k) (Fails p q) := by
  apply (useBlock_ensures quiet).bind
  intro k₁ h₁
  apply (logWrite_ensures k₁).bind
  intro k₂ h₂
  apply (useBlock_ensures fun hq => (h₁.trans h₂).spin.trans (quiet hq)).bind
  intro k₃ h₃
  apply (logWrite_ensures k₃).mono
  intro _ h₄
  exact ((h₁.trans h₂).trans h₃).trans h₄

theorem bmap_ensures (ip : Fin NINODE) (bn : Nat) (quiet : q → k.spin = []) :
    Ensures (k.bmap ip bn) (Drift k) (Fails p q) := by
  unfold Kern.bmap
  split
  · exact onlyIf_ensures _ (fun _ => balloc_ensures quiet) (.refl k)
  · apply (onlyIf_ensures _ (fun _ => balloc_ensures quiet) (Drift.refl k)).bind
    intro k₁ h₁
    apply (bread_ensures fun hq => h₁.spin.trans (quiet hq)).bind
    intro k₂ h₂
    have still : q → k₂.spin = [] := fun hq => (h₁.trans h₂).spin.trans (quiet hq)
    apply (onlyIf_ensures _ (fun _ => ?_) (Drift.refl k₂)).bind
    · intro k₃ h₃
      apply (brelse_ensures k₃).mono
      rintro _ rfl
      exact (h₁.trans h₂).trans h₃
    · apply (balloc_ensures still).bind
      intro k₃ h₃
      exact (logWrite_ensures k₃).mono fun _ h₄ => h₃.trans h₄

end Locks

end MmapXv6
