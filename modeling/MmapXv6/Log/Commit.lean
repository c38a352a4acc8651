import MmapXv6.Log.Group

/-! Safety of group commit. While a process is in commit there is no live operation,
so the header it writes to the log, installs and empties is the one that the ended
operations built. -/
namespace MmapXv6

open Lib
open Function (update_of_ne update_self)

def LogState.PhaseOk (s : LogState P) : LogPc → Prop
  | .commit | .writeLog _ | .writeHead => s.installed = []
  | .installTrans tail => s.installed = s.lh.take tail ∧ tail ≤ s.lh.length
  | .clear => s.installed = s.lh
  | .eraseHead | .finish => s.lh = [] ∧ ∀ x, x ∈ s.installed ↔ s.Logged x
  | _ => True

structure GroupInv (s : LogState P) : Prop where
  count : s.outstanding = s.live.length
  owners : (s.live.map LogOp.owner).Nodup
  inside : ∀ p, (s.pc p).InOp ↔ p ∈ s.live.map LogOp.owner
  flag : s.committing = true ↔ ∃ p, (s.pc p).InCommit
  alone : ∀ p q, (s.pc p).InCommit → (s.pc q).InCommit → p = q
  quiet : s.committing = true → s.live = []
  distinct : s.lh.Nodup
  logged : (∀ p, (s.pc p).zone ≠ .erased) → ∀ x, x ∈ s.lh ↔ s.Logged x
  phase : ∀ p, s.PhaseOk (s.pc p)

section Basics
variable {P : Type} {s : LogState P} {p : P}

theorem wakeup_zone (q : P) : (s.wakeup.pc q).zone = (s.pc q).zone := by
  simp only [LogState.wakeup]
  split
  · rename_i asleep; rw [asleep]; rfl
  · rfl

theorem phaseOk_of_not_commit {pc : LogPc} (h : ¬ pc.InCommit) : s.PhaseOk pc := by
  cases pc <;> simp_all [LogPc.InCommit, LogState.PhaseOk]

theorem GroupInv.no_commit (h : GroupInv s) (off : s.committing = false) (p : P) :
    ¬ (s.pc p).InCommit :=
  fun hp => by rw [h.flag.mpr ⟨p, hp⟩] at off; cases off

theorem GroupInv.logged_of_off (h : GroupInv s) (off : s.committing = false) (x : Nat) :
    x ∈ s.lh ↔ s.Logged x :=
  h.logged (fun p e => h.no_commit off p (.inr e)) x

theorem GroupInv.not_committing (h : GroupInv s) (op : (s.pc p).InOp) : s.committing = false := by
  cases on : s.committing with
  | false => rfl
  | true => have := (h.inside p).mp op; rw [h.quiet on] at this; cases this

theorem GroupInv.live_nil (h : GroupInv s) (commit : (s.pc p).InCommit) : s.live = [] :=
  h.quiet (h.flag.mpr ⟨p, commit⟩)

theorem GroupInv.of_off (off : s.committing = false) (count : s.outstanding = s.live.length)
    (owners : (s.live.map LogOp.owner).Nodup)
    (inside : ∀ p, (s.pc p).InOp ↔ p ∈ s.live.map LogOp.owner)
    (none : ∀ p, ¬ (s.pc p).InCommit) (distinct : s.lh.Nodup)
    (logged : ∀ x, x ∈ s.lh ↔ s.Logged x) : GroupInv s where
  count := count
  owners := owners
  inside := inside
  flag := by simpa [off] using none
  alone p _ hp := absurd hp (none p)
  quiet on := by cases off.symm.trans on
  distinct := distinct
  logged _ := logged
  phase p := phaseOk_of_not_commit (none p)

theorem GroupInv.of_on (on : s.committing = true) (count : s.outstanding = 0) (live : s.live = [])
    (committer : (s.pc p).InCommit) (others : ∀ q, q ≠ p → (s.pc q).zone = .idle)
      (distinct : s.lh.Nodup)
    (logged : (s.pc p).zone = .commit → ∀ x, x ∈ s.lh ↔ s.Logged x) (phase : s.PhaseOk (s.pc p)) :
    GroupInv s := by
  have only : ∀ q, (s.pc q).InCommit → q = p := by
    intro q hq
    by_contra ne
    rcases hq with hq | hq <;> cases (others q ne).symm.trans hq
  have outside : ∀ q, ¬ (s.pc q).InOp := by
    intro q hq
    by_cases e : q = p
    · subst e
      rcases committer with hc | hc <;> cases hq.symm.trans hc
    · cases (others q e).symm.trans hq
  refine ⟨by simp [count, live], by simp [live], fun q => by simp [live, outside q],
    ⟨fun _ => ⟨p, committer⟩, fun _ => on⟩,
    fun q r hq hr => (only q hq).trans (only r hr).symm, fun _ => live, distinct, fun alive => ?_,
      fun q => ?_⟩
  · exact logged (committer.resolve_right (alive p))
  · by_cases e : q = p
    · subst e; exact phase
    · exact phaseOk_of_not_commit (fun hq => e (only q hq))

theorem GroupInv.repc (h : GroupInv s) {pc : P → LogPc} (same : ∀ q, (pc q).zone = (s.pc q).zone)
    (phase : ∀ q, s.PhaseOk (pc q)) : GroupInv { s with pc := pc } where
  count := h.count
  owners := h.owners
  inside q := by simpa only [LogPc.InOp, same q] using h.inside q
  flag := by simpa only [LogPc.InCommit, same] using h.flag
  alone q r := by simpa only [LogPc.InCommit, same] using h.alone q r
  quiet := h.quiet
  distinct := h.distinct
  logged alive := h.logged (fun q => by rw [← same q]; exact alive q)
  phase := phase

theorem GroupInv.wakeup (h : GroupInv s) : GroupInv s.wakeup := by
  refine h.repc wakeup_zone (fun q => ?_)
  split
  · trivial
  · exact h.phase q

theorem GroupInv.initial : GroupInv ({} : LogState P) :=
  .of_off rfl rfl List.nodup_nil (fun p => by simp [LogPc.InOp]) (fun p => by simp [LogPc.InCommit])
    List.nodup_nil (fun x => by simp [LogState.Logged, LogState.begun])

theorem GroupInv.idle_of_commit (h : GroupInv s) (commit : (s.pc p).InCommit) {q : P} (ne : q ≠ p) :
    (s.pc q).zone = .idle := by
  have noOp : ¬ (s.pc q).InOp := by rw [h.inside q, h.live_nil commit]; simp
  have noCommit : ¬ (s.pc q).InCommit := fun hq => ne (h.alone q p hq commit)
  cases zone : (s.pc q).zone with
  | idle => rfl
  | op => exact absurd zone noOp
  | commit => exact absurd (.inl zone) noCommit
  | erased => exact absurd (.inr zone) noCommit

end Basics

section Moves
variable {P : Type} [DecidableEq P] {s : LogState P} {p : P}

@[simp] theorem goto_self (pc : LogPc) : (s.goto p pc).pc p = pc := update_self _ _ _

theorem goto_ne {q : P} (pc : LogPc) (h : q ≠ p) : (s.goto p pc).pc q = s.pc q :=
    update_of_ne h _ _

theorem GroupInv.goto (h : GroupInv s) {pc : LogPc} (same : pc.zone = (s.pc p).zone)
    (phase : s.PhaseOk pc) : GroupInv (s.goto p pc) := by
  refine h.repc (fun q => ?_) (fun q => ?_) <;> by_cases e : q = p
  · subst e; rw [update_self, same]
  · rw [update_of_ne e]
  · subst e; rw [update_self]; exact phase
  · rw [update_of_ne e]; exact h.phase q

theorem goto_no_commit (none : ∀ q, q ≠ p → ¬ (s.pc q).InCommit) {pc : LogPc} (h : ¬ pc.InCommit)
    (q : P) :
    ¬ ((s.goto p pc).pc q).InCommit := by
  by_cases e : q = p
  · subst e; rwa [goto_self]
  · rw [goto_ne pc e]; exact none q e

theorem GroupInv.beginOp (h : GroupInv s) (idle : (s.pc p).zone = .idle) :
    GroupInv (s.beginOp p) := by
  unfold LogState.beginOp
  split
  · exact h.goto (by rw [idle]; rfl) trivial
  split
  · exact h.goto (by rw [idle]; rfl) trivial
  rename_i on _
  have off : s.committing = false := by simpa using on
  have fresh : p ∉ s.live.map LogOp.owner := by
    rw [← h.inside p, LogPc.InOp, idle]
    exact LogZone.noConfusion
  refine .of_off off ?_ ?_ (fun q => ?_) ?_ h.distinct (fun x => ?_)
  · simp [LogState.goto, h.count]
  · exact List.nodup_cons.mpr ⟨fresh, h.owners⟩
  · by_cases e : q = p
    · subst e; simp [LogState.goto, LogPc.InOp]
    · simpa [LogState.goto, e] using h.inside q
  · exact goto_no_commit (fun q _ => h.no_commit off q) (by simp [LogPc.InCommit])
  · apply (h.logged_of_off off x).trans
    simp [LogState.Logged, LogState.begun, LogState.goto]

theorem owner_add (x : Nat) (op : LogOp P) : (op.add p x).owner = op.owner := by
  unfold LogOp.add
  split <;> rfl

theorem mem_add {x y : Nat} {op : LogOp P} :
    y ∈ (op.add p x).sectors ↔ y ∈ op.sectors ∨ (op.owner = p ∧ y = x) := by
  unfold LogOp.add
  split
  · rename_i h
    simp [h.1, or_comm]
  · rename_i h
    refine ⟨.inl, fun hy => hy.elim id (fun e => ?_)⟩
    by_contra out
    exact h ⟨e.1, e.2 ▸ out⟩

theorem GroupInv.log (h : GroupInv s) (op : (s.pc p).InOp) (x : Nat) {lh : List Nat}
    (distinct : lh.Nodup)
    (added : ∀ y, y ∈ lh ↔ y ∈ s.lh ∨ y = x) :
    GroupInv ({ s with lh := lh, live := s.live.map (LogOp.add p x) }.goto p .inside) := by
  have off := h.not_committing op
  have same : (s.live.map (LogOp.add p x)).map LogOp.owner = s.live.map LogOp.owner := by
    simp [Function.comp_def, owner_add]
  refine .of_off off ?_ ?_ (fun q => ?_) ?_ distinct (fun y => ?_)
  · simpa [LogState.goto] using h.count
  · exact same.symm ▸ h.owners
  · refine (?_ : _ ↔ _).trans ((h.inside q).trans (by rw [← same]; rfl))
    by_cases e : q = p
    · subst e; simpa [LogState.goto, LogPc.InOp] using op
    · simp [LogState.goto, e]
  · exact goto_no_commit (fun q _ => h.no_commit off q) (by simp [LogPc.InCommit])
  · apply (added y).trans
    rw [h.logged_of_off off y]
    obtain ⟨mine, live, owner⟩ := List.mem_map.mp ((h.inside p).mp op)
    simp only [LogState.Logged, LogState.begun, LogState.goto, List.mem_append]
    constructor
    · rintro (⟨o, ho | ho, hy⟩ | rfl)
      · exact ⟨o.add p x, .inl (List.mem_map_of_mem ho), mem_add.mpr (.inl hy)⟩
      · exact ⟨o, .inr ho, hy⟩
      · exact ⟨mine.add p y, .inl (List.mem_map_of_mem live), mem_add.mpr (.inr ⟨owner, rfl⟩)⟩
    · rintro ⟨o, ho | ho, hy⟩
      · obtain ⟨old, hold, rfl⟩ := List.mem_map.mp ho
        exact (mem_add.mp hy).imp (fun hy => ⟨old, .inl hold, hy⟩) (fun e => e.2)
      · exact .inl ⟨o, .inr ho, hy⟩

theorem GroupInv.append (h : GroupInv s) (op : (s.pc p).InOp) {x : Nat} {t : LogState P}
    (appended : s.append p x = .ok t) : GroupInv t := by
  unfold LogState.append at appended
  split at appended
  · rename_i absorbed
    cases appended
    exact h.log op x h.distinct (fun y => ⟨.inl, fun hy => hy.elim id (fun e => e ▸ absorbed)⟩)
  split at appended
  · rename_i fresh _
    cases appended
    refine h.log op x ?_ (fun y => by simp)
    refine List.nodup_append.mpr ⟨h.distinct, List.pairwise_singleton _ x, fun a ha b hb => ?_⟩
    rintro rfl
    exact fresh (List.mem_singleton.mp hb ▸ ha)
  · cases appended

theorem GroupInv.close_length (h : GroupInv s) (op : (s.pc p).InOp) :
    ((s.live.filter (fun o => o.owner ≠ p)).length : Int) = s.outstanding - 1 := by
  rw [h.count]
  have mem := (h.inside p).mp op
  have owners := h.owners
  generalize s.live = live at mem owners
  induction live with
  | nil => cases mem
  | cons o rest ih =>
    rw [List.map_cons, List.nodup_cons] at owners
    by_cases e : o.owner = p
    · have others : rest.filter (fun o => o.owner ≠ p) = rest := by
        refine List.filter_eq_self.mpr (fun r hr => ?_)
        have ne : r.owner ≠ p := fun er => owners.1 (List.mem_map.mpr ⟨r, hr, er.trans e.symm⟩)
        simpa using ne
      rw [List.filter_cons_of_neg (by simpa using e), others]
      simp
    · have later : p ∈ rest.map LogOp.owner := by simpa [Ne.symm e] using mem
      have := ih later owners.2
      rw [List.filter_cons_of_pos (by simpa using e)]
      simp only [List.length_cons]
      omega

theorem closeOp_logged (x : Nat) : (s.closeOp p).Logged x ↔ s.Logged x := by
  simp only [LogState.Logged, LogState.begun, LogState.closeOp, List.mem_append, List.mem_filter]
  constructor
  · rintro ⟨op, h | h | h, hx⟩
    · exact ⟨op, .inl h.1, hx⟩
    · exact ⟨op, .inl h.1, hx⟩
    · exact ⟨op, .inr h, hx⟩
  · rintro ⟨op, h | h, hx⟩
    · by_cases e : op.owner = p
      · exact ⟨op, .inr (.inl ⟨h, by simpa using e⟩), hx⟩
      · exact ⟨op, .inl ⟨h, by simpa using e⟩, hx⟩
    · exact ⟨op, .inr (.inr h), hx⟩

theorem GroupInv.endOp (h : GroupInv s) (op : (s.pc p).InOp) {t : LogState P}
    (ended : s.endOp p = .ok t) : GroupInv t := by
  have off := h.not_committing op
  have length := h.close_length op
  unfold LogState.endOp at ended
  rw [off, if_neg (by simp)] at ended
  split at ended
  · rename_i last
    cases ended
    rw [last] at length
    have live : s.live.filter (fun o => o.owner ≠ p) = [] := List.length_eq_zero_iff.mp (by omega)
    refine .of_on (p := p) rfl last live ?_ (fun q ne => ?_) h.distinct (fun _ x => ?_) ?_
    · rw [goto_self]; exact .inl rfl
    · rw [goto_ne _ ne]
      have noOp : ¬ (s.pc q).InOp := by
        rw [h.inside q]
        intro hq
        obtain ⟨o, ho, rfl⟩ := List.mem_map.mp hq
        have : o ∈ s.live.filter (fun o => o.owner ≠ p) :=
          List.mem_filter.mpr ⟨ho, by simpa using ne⟩
        rw [live] at this
        cases this
      have noCommit := h.no_commit off q
      cases zone : (s.pc q).zone with
      | idle => exact zone
      | op => exact absurd zone noOp
      | commit => exact absurd (.inl zone) noCommit
      | erased => exact absurd (.inr zone) noCommit
    · exact (h.logged_of_off off x).trans (closeOp_logged x).symm
    · rw [goto_self]; rfl
  · cases ended
    have closed : GroupInv ((s.closeOp p).goto p .out) := by
      refine .of_off off length.symm ?_ (fun q => ?_) ?_ h.distinct (fun x => ?_)
      · exact h.owners.sublist (List.Sublist.map _ List.filter_sublist)
      · by_cases e : q = p
        · subst e
          simp [LogState.goto, LogState.closeOp, LogPc.InOp]
        · rw [goto_ne _ e]
          apply (h.inside q).trans
          simp only [LogState.goto, LogState.closeOp, List.mem_map, List.mem_filter]
          refine exists_congr
            (fun o => ⟨fun ⟨ho, eo⟩ => ⟨⟨ho, ?_⟩, eo⟩, fun ⟨ho, eo⟩ => ⟨ho.1, eo⟩⟩)
          simpa [eo] using e
      · exact goto_no_commit (fun q _ => h.no_commit off q) (by simp [LogPc.InCommit])
      · exact (h.logged_of_off off x).trans (closeOp_logged x).symm
    have same : (s.closeOp p).wakeup.goto p .out = ((s.closeOp p).goto p .out).wakeup := by
      simp only [LogState.goto, LogState.wakeup]
      congr 1
      funext q
      by_cases e : q = p
      · subst e; simp
      · simp [e]
    rw [same]
    exact closed.wakeup

theorem GroupInv.advance (h : GroupInv s) (commit : (s.pc p).InCommit) {pc : LogPc}
    (into : pc.InCommit) {lh installed : List Nat} (distinct : lh.Nodup)
    (logged : pc.zone = .commit → ∀ x, x ∈ lh ↔ s.Logged x)
    (phase : ({ s with lh := lh, installed := installed } : LogState P).PhaseOk pc) :
    GroupInv ({ s with lh := lh, installed := installed }.goto p pc) := by
  have live := h.live_nil commit
  have count : s.outstanding = 0 := by rw [h.count, live]; rfl
  refine .of_on (p := p) (h.flag.mpr ⟨p, commit⟩) count live ?_ (fun q ne => ?_) distinct ?_ ?_
  · rwa [goto_self]
  · rw [goto_ne _ ne]
    exact h.idle_of_commit commit ne
  · rw [goto_self]
    exact logged
  · rw [goto_self]
    exact phase

theorem GroupInv.logged_of_commit (h : GroupInv s) (commit : (s.pc p).zone = .commit) (x : Nat) :
    x ∈ s.lh ↔ s.Logged x := by
  refine h.logged (fun q => ?_) x
  by_cases e : q = p
  · subst e; rw [commit]; exact LogZone.noConfusion
  · rw [h.idle_of_commit (.inl commit) e]; exact LogZone.noConfusion

theorem GroupInv.commitStep (h : GroupInv s) : GroupInv (s.commitStep p) := by
  have phase := h.phase p
  unfold LogState.commitStep
  split <;> rename_i pc <;> try rw [pc] at phase
  · have zone : (s.pc p).zone = .commit := by rw [pc]; rfl
    have logged := h.logged_of_commit zone
    split
    · exact h.advance (.inl zone) (.inl rfl) h.distinct (fun _ => logged) phase
    · rename_i empty
      have nil : s.lh = [] := List.length_eq_zero_iff.mp (by omega)
      have none : ∀ x, x ∈ s.installed ↔ s.Logged x := by
        intro x
        rw [phase, ← logged x, nil]
      exact h.advance (.inl zone) (.inr rfl) h.distinct (fun _ => logged) ⟨nil, none⟩
  · split
    · exact h.goto (by rw [pc]; rfl) phase
    · exact h.goto (by rw [pc]; rfl) phase
  · exact h.goto (by rw [pc]; rfl) ⟨phase, Nat.zero_le _⟩
  · rename_i tail
    have zone : (s.pc p).zone = .commit := by rw [pc]; rfl
    split
    · rename_i x found
      obtain ⟨bound, rfl⟩ := List.getElem?_eq_some_iff.mp found
      refine h.advance (.inl zone) (.inl rfl) h.distinct
        (fun _ => h.logged_of_commit zone) ⟨?_, bound⟩
      rw [phase.1, List.take_succ_eq_append_getElem bound]
    · rename_i past
      have whole : s.lh.length ≤ tail := List.getElem?_eq_none_iff.mp past
      apply h.goto (by rw [pc]; rfl)
      exact phase.1.trans (List.take_of_length_le whole)
  · have zone : (s.pc p).zone = .commit := by rw [pc]; rfl
    refine h.advance (.inl zone) (.inr rfl) List.nodup_nil (fun e => by cases e) ⟨rfl, fun x => ?_⟩
    exact (phase ▸ h.logged_of_commit zone x)
  · exact h.goto (by rw [pc]; rfl) phase
  · have commit : (s.pc p).InCommit := by rw [pc]; exact .inr rfl
    have live := h.live_nil commit
    refine GroupInv.wakeup (.of_off rfl h.count h.owners (fun q => ?_) ?_ h.distinct (fun x => ?_))
    · by_cases e : q = p
      · subst e; simp [LogState.goto, LogPc.InOp, live]
      · rw [goto_ne _ e]; exact h.inside q
    · exact goto_no_commit (fun q ne hq => ne (h.alone q p hq commit)) (by simp [LogPc.InCommit])
    · simp [LogState.Logged, LogState.begun, LogState.goto, live, phase.1]
  · exact h

end Moves

section Runs
variable {P : Type} [DecidableEq P] {size : Nat} {s : LogState P}

theorem GroupInv.step (h : GroupInv s) {a : LogAct P} {t : LogState P}
    (stepped : s.step size a = .ok t) :
    GroupInv t := by
  cases a with
  | beginOp p =>
    cases stepped
    split
    · rename_i idle
      exact h.beginOp (by rcases idle with e | e <;> rw [e] <;> rfl)
    · exact h
  | wake p =>
    cases stepped
    split
    · rename_i asleep
      exact h.goto (by rw [asleep]; rfl) trivial
    · exact h
  | logWrite p x =>
    simp only [LogState.step] at stepped
    split at stepped
    · rename_i inside
      split at stepped
      · cases stepped
      · cases stepped
        exact h.goto (by rw [inside]; rfl) trivial
    · cases stepped; exact h
  | testTrans p =>
    simp only [LogState.step] at stepped
    split at stepped
    · rename_i x sized
      split at stepped
      · cases stepped
      · cases stepped
        exact h.goto (by rw [sized]; rfl) trivial
    · cases stepped; exact h
  | append p =>
    simp only [LogState.step] at stepped
    split at stepped
    · rename_i x tested
      exact h.append (by rw [tested]; rfl) stepped
    · cases stepped; exact h
  | endOp p =>
    simp only [LogState.step] at stepped
    split at stepped
    · rename_i inside
      exact h.endOp (by rw [inside]; rfl) stepped
    · cases stepped; exact h
  | commitStep p =>
    cases stepped
    exact h.commitStep

theorem group_inv {allowed : LogState P → LogAct P → Prop} (run : s.Reached size allowed) :
    GroupInv s :=
  Reaches.invariant GroupInv (by rintro _ rfl; exact .initial)
    (fun _ _ _ h _ stepped => h.step stepped) run

/-- While a process commits it is the only one to do so, no operation and so no
log_write is under way, and every operation begun since the previous commit has
executed end_op. Their sectors are those of the header until it is emptied, and when
commit returns they are exactly the installed ones. -/
theorem group_commit (run : s.Reached size (fun _ _ => True)) {p : P}
    (committer : (s.pc p).InCommit) :
    s.committing = true ∧ s.outstanding = 0 ∧ (∀ q, (s.pc q).InCommit → q = p) ∧
    (∀ q, ¬ (s.pc q).InOp) ∧ (∀ op ∈ s.begun, op ∈ s.ended) ∧
    ((s.pc p).zone = .commit → ∀ x, x ∈ s.lh ↔ ∃ op ∈ s.begun, x ∈ op.sectors) ∧
    (s.pc p = .finish → ∀ x, x ∈ s.installed ↔ ∃ op ∈ s.begun, x ∈ op.sectors) := by
  have inv := group_inv run
  have live := inv.live_nil committer
  refine ⟨inv.flag.mpr ⟨p, committer⟩, ?_, fun q hq => inv.alone q p hq committer, fun q => ?_,
    fun op hop => ?_, inv.logged_of_commit, fun finish => ?_⟩
  · rw [inv.count, live]; rfl
  · rw [inv.inside q, live]; simp
  · rwa [LogState.begun, live] at hop
  · have phase := inv.phase p
    rw [finish] at phase
    exact phase.2

end Runs

/-- Two processes log sectors 7, 8 and 8 in overlapping operations; the second commits. -/
theorem group_commit_two :
    ∃ s : LogState (Fin 2), s.Reached LOGSIZE (fun _ _ => True) ∧ s.pc 1 = .finish ∧
      s.installed = [7, 8] ∧
      s.ended.length = 2 ∧ ∀ x, x ∈ s.installed ↔ ∃ op ∈ s.begun, x ∈ op.sectors := by
  have start : ({} : LogState (Fin 2)).Reached LOGSIZE (fun _ _ => True) := .start rfl
  obtain ⟨s, run, last⟩ := start.exists_of_follow
    [.beginOp 0, .logWrite 0 7, .beginOp 1, .testTrans 0, .logWrite 1 8, .append 0, .logWrite 0 8,
      .testTrans 1,
      .testTrans 0, .append 1, .append 0, .endOp 0, .endOp 1, .commitStep 1,
      .commitStep 1, .beginOp 0,
      .commitStep 1, .commitStep 1, .commitStep 1, .commitStep 1, .commitStep 1, .commitStep 1,
        .commitStep 1,
      .commitStep 1]
    (fun s => s.pc 1 = .finish ∧ s.installed = [7, 8] ∧ s.ended.length = 2) (by decide)
  simp only [decide_eq_true_eq] at last
  have done := group_commit run (p := 1) (by rw [last.1]; exact .inr rfl)
  exact ⟨s, run, last.1, last.2.1, last.2.2, done.2.2.2.2.2.2 last.1⟩

end MmapXv6
