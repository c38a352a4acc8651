import MmapXv6.Log.Commit

/-! The space that begin_op reserves. The sectors in the header plus the blocks that
the live operations may still log never exceed what the last admission allowed; the
test of log_write is stricter than the test of begin_op, so that is not enough. -/
namespace MmapXv6

open Lib

/-- Each operation logs at most MAXOPBLOCKS distinct sectors. -/
def WithinLimit (s : LogState P) : LogAct P → Prop
  | .logWrite p x => ∀ op ∈ s.live, op.owner = p → x ∈ op.sectors ∨ op.sectors.length < MAXOPBLOCKS
  | _ => True

/-- A begin_op that is let in finds room for its blocks below cap. -/
def AdmitsBelow (cap : Nat) (s : LogState P) : LogAct P → Prop
  | .beginOp _ => s.committing = false →
      s.lh.length + (s.outstanding + 1) * MAXOPBLOCKS ≤ LOGSIZE →
      s.lh.length + (s.outstanding + 1) * MAXOPBLOCKS ≤ cap
  | _ => True

instance [DecidableEq P] (s : LogState P) : (a : LogAct P) → Decidable (WithinLimit s a)
  | .logWrite p x => inferInstanceAs
      (Decidable (∀ op ∈ s.live, op.owner = p → x ∈ op.sectors ∨ op.sectors.length < MAXOPBLOCKS))
  | .beginOp _ | .wake _ | .testTrans _ | .append _ | .endOp _ | .commitStep _ => isTrue trivial

instance (cap : Nat) (s : LogState P) : (a : LogAct P) → Decidable (AdmitsBelow cap s a)
  | .beginOp _ => inferInstanceAs (Decidable (_ → _ → _))
  | .logWrite _ _ | .wake _ | .testTrans _ | .append _ | .endOp _ | .commitStep _ => isTrue trivial

def remaining (live : List (LogOp P)) : Nat :=
    (live.map (fun op => MAXOPBLOCKS - op.sectors.length)).sum

def LogPc.Logging (pc : LogPc) (x : Nat) : Prop := pc = .sized x ∨ pc = .tested x

structure ReserveInv (cap : Nat) (s : LogState P) : Prop where
  fits : s.lh.length + remaining s.live ≤ cap
  pending : ∀ p x, (s.pc p).Logging x → ∀ op ∈ s.live, op.owner = p →
    x ∈ op.sectors ∨ op.sectors.length < MAXOPBLOCKS

section Remaining
variable {P : Type}

theorem remaining_cons (op : LogOp P) (live : List (LogOp P)) :
    remaining (op :: live) = (MAXOPBLOCKS - op.sectors.length) + remaining live := rfl

theorem remaining_le (live : List (LogOp P)) : remaining live ≤ live.length * MAXOPBLOCKS := by
  induction live with
  | nil => exact Nat.le_refl _
  | cons op live ih =>
    rw [remaining_cons, List.length_cons]
    simp only [MAXOPBLOCKS] at ih ⊢
    omega

theorem remaining_filter (live : List (LogOp P)) (keep : LogOp P → Bool) :
    remaining (live.filter keep) ≤ remaining live := by
  induction live with
  | nil => exact Nat.le_refl _
  | cons op live ih =>
    cases h : keep op with
    | true => rw [List.filter_cons_of_pos h, remaining_cons, remaining_cons]; omega
    | false => rw [List.filter_cons_of_neg (by simp [h]), remaining_cons]; omega

variable [DecidableEq P]

theorem length_le_add (p : P) (x : Nat) (op : LogOp P) :
    op.sectors.length ≤ (op.add p x).sectors.length := by
  unfold LogOp.add
  split
  · simp
  · exact Nat.le_refl _

theorem remaining_add (p : P) (x : Nat) (live : List (LogOp P)) :
    remaining (live.map (LogOp.add p x)) ≤ remaining live := by
  induction live with
  | nil => exact Nat.le_refl _
  | cons op live ih =>
    have := length_le_add p x op
    rw [List.map_cons, remaining_cons, remaining_cons]
    omega

theorem remaining_add_lt {p : P} {x : Nat} {op : LogOp P} {live : List (LogOp P)} (mine : op ∈ live)
    (owner : op.owner = p) (fresh : x ∉ op.sectors) (short : op.sectors.length < MAXOPBLOCKS) :
    remaining (live.map (LogOp.add p x)) + 1 ≤ remaining live := by
  induction live with
  | nil => cases mine
  | cons o live ih =>
    rw [List.map_cons, remaining_cons, remaining_cons]
    rcases List.mem_cons.mp mine with rfl | later
    · have grown : (op.add p x).sectors.length = op.sectors.length + 1 := by
        rw [LogOp.add, if_pos ⟨owner, fresh⟩]; rfl
      have := remaining_add p x live
      omega
    · have := ih later
      have := length_le_add p x o
      omega

end Remaining

section Steps
variable {P : Type} {cap size : Nat} {s : LogState P} {p : P}

/-- What a step may do without using up reserved space: the header and the live
operations do not grow, and no process enters log_write. -/
theorem ReserveInv.shrink (h : ReserveInv cap s) {t : LogState P} (lh : t.lh.length ≤ s.lh.length)
    (live : ∃ keep, t.live = s.live.filter keep)
    (logging : ∀ q x, (t.pc q).Logging x → (s.pc q).Logging x) : ReserveInv cap t := by
  obtain ⟨keep, live⟩ := live
  have fits := h.fits
  have fewer := remaining_filter s.live keep
  refine ⟨by rw [live]; omega, fun q x hq op hop => ?_⟩
  rw [live] at hop
  exact h.pending q x (logging q x hq) op (List.mem_filter.mp hop).1

theorem wakeup_logging (q : P) (x : Nat) (h : (s.wakeup.pc q).Logging x) : (s.pc q).Logging x := by
  simp only [LogState.wakeup] at h
  split at h
  · rcases h with h | h <;> cases h
  · exact h

theorem filter_true (live : List (LogOp P)) : ∃ keep, live = live.filter keep :=
  ⟨fun _ => true, (List.filter_eq_self.mpr (fun _ _ => rfl)).symm⟩

theorem not_logging {pc : LogPc} {x : Nat} (h : pc.zone ≠ .op) : ¬ pc.Logging x := by
  rintro (rfl | rfl) <;> exact h rfl

variable [DecidableEq P]

theorem goto_logging {pc : LogPc} (none : ∀ x, pc.Logging x → (s.pc p).Logging x) (q : P) (x : Nat)
    (h : ((s.goto p pc).pc q).Logging x) : (s.pc q).Logging x := by
  by_cases e : q = p
  · subst e; rw [goto_self] at h; exact none x h
  · rwa [goto_ne pc e] at h

theorem ReserveInv.beginOp (h : ReserveInv cap s) (g : GroupInv s) (idle : (s.pc p).zone = .idle)
    (admitted : AdmitsBelow cap s (.beginOp p)) : ReserveInv cap (s.beginOp p) := by
  have sleep : ReserveInv cap (s.goto p .asleep) :=
    h.shrink (Nat.le_refl _) (filter_true _)
      (goto_logging (fun x hx => absurd hx (not_logging (by simp))))
  unfold LogState.beginOp
  split
  · exact sleep
  split
  · exact sleep
  rename_i on room
  have below := admitted (by simpa using on) (by omega)
  have count := g.count
  constructor
  · have all := remaining_le s.live
    simp only [LogState.goto, remaining_cons, List.length_nil]
    simp only [MAXOPBLOCKS] at below all ⊢
    omega
  · intro q x hq op hop owner
    have enters : ∀ x, LogPc.Logging .inside x → (s.pc p).Logging x := by
      rintro x (e | e) <;> cases e
    have old := goto_logging (s := s) (p := p) enters q x hq
    rcases List.mem_cons.mp hop with rfl | hop
    · rw [← owner] at old
      exact absurd old (not_logging (by rw [idle]; exact LogZone.noConfusion))
    · exact h.pending q x old op hop owner

theorem ReserveInv.append (h : ReserveInv cap s) (g : GroupInv s) {x : Nat}
    (tested : s.pc p = .tested x)
    {t : LogState P} (appended : s.append p x = .ok t) : ReserveInv cap t := by
  have op : (s.pc p).InOp := by rw [tested]; rfl
  have off := g.not_committing op
  have pending : ∀ lh q y,
      (((({ s with lh := lh, live := s.live.map (LogOp.add p x) } : LogState P).goto p
      .inside).pc q).Logging y) → ∀ o ∈ s.live.map (LogOp.add p x), o.owner = q →
      y ∈ o.sectors ∨ o.sectors.length < MAXOPBLOCKS := by
    intro lh q y hq o ho owner
    by_cases e : q = p
    · subst e
      rw [goto_self] at hq
      exact absurd hq (by rintro (e | e) <;> cases e)
    · rw [goto_ne _ e] at hq
      obtain ⟨old, hold, rfl⟩ := List.mem_map.mp ho
      rw [owner_add] at owner
      have same : old.add p x = old :=
          by rw [LogOp.add, if_neg (fun both => e (owner.symm.trans both.1))]
      rw [same]
      exact h.pending q y hq old hold owner
  have fits := h.fits
  unfold LogState.append at appended
  split at appended
  · cases appended
    have := remaining_add p x s.live
    exact ⟨by simp only [LogState.goto]; omega, pending _⟩
  split at appended
  · rename_i fresh _
    cases appended
    obtain ⟨mine, live, owner⟩ := List.mem_map.mp ((g.inside p).mp op)
    have new : x ∉ mine.sectors := fun hx =>
      fresh ((g.logged_of_off off x).mpr ⟨mine, List.mem_append_left _ live, hx⟩)
    have short := (h.pending p x (.inr tested) mine live owner).resolve_left new
    have := remaining_add_lt live owner new short
    exact ⟨by simp only [LogState.goto, List.length_append, List.length_singleton]; omega,
      pending _⟩
  · cases appended

theorem ReserveInv.endOp (h : ReserveInv cap s) {t : LogState P} (ended : s.endOp p = .ok t) :
    ReserveInv cap t := by
  unfold LogState.endOp at ended
  split at ended
  · cases ended
  split at ended
  · cases ended
    exact h.shrink (Nat.le_refl _) ⟨_, rfl⟩
      (goto_logging (fun x hx => absurd hx (not_logging (by simp))))
  · cases ended
    refine h.shrink (Nat.le_refl _) ⟨_, rfl⟩ (fun q x hq => ?_)
    exact wakeup_logging (s := s) q x
      (goto_logging (s := s.wakeup) (fun x hx => absurd hx (not_logging (by simp))) q x hq)

theorem ReserveInv.commitStep (h : ReserveInv cap s) : ReserveInv cap (s.commitStep p) := by
  have move : ∀ {pc : LogPc} (lh installed : List Nat), lh.length ≤ s.lh.length → pc.zone ≠ .op →
      ReserveInv cap ({ s with lh := lh, installed := installed }.goto p pc) := by
    intro pc lh installed shorter zone
    exact h.shrink shorter (filter_true _)
      (goto_logging (s := s) (fun x hx => absurd hx (not_logging zone)))
  unfold LogState.commitStep
  split
  · split
    · exact move _ _ (Nat.le_refl _) (by simp)
    · exact move _ _ (Nat.le_refl _) (by simp)
  · split
    · exact move _ _ (Nat.le_refl _) (by simp)
    · exact move _ _ (Nat.le_refl _) (by simp)
  · exact move _ _ (Nat.le_refl _) (by simp)
  · split
    · exact move _ _ (Nat.le_refl _) (by simp)
    · exact move _ _ (Nat.le_refl _) (by simp)
  · exact move [] _ (Nat.zero_le _) (by simp)
  · exact move _ _ (Nat.le_refl _) (by simp)
  · refine h.shrink (Nat.le_refl _) (filter_true _) (fun q x hq => ?_)
    exact goto_logging (s := s) (fun x hx => absurd hx (not_logging (by simp))) q x
      (wakeup_logging q x hq)
  · exact h

theorem ReserveInv.step (h : ReserveInv cap s) (g : GroupInv s) {a : LogAct P}
    (limit : WithinLimit s a)
    (admits : AdmitsBelow cap s a) {t : LogState P} (stepped : s.step size a = .ok t) :
    ReserveInv cap t := by
  cases a with
  | beginOp p =>
    cases stepped
    split
    · rename_i idle
      exact h.beginOp g (by rcases idle with e | e <;> rw [e] <;> rfl) admits
    · exact h
  | wake p =>
    cases stepped
    split
    · exact h.shrink (Nat.le_refl _) (filter_true _)
        (goto_logging (fun x hx => absurd hx (not_logging (by simp))))
    · exact h
  | logWrite p x =>
    simp only [LogState.step] at stepped
    split at stepped
    · split at stepped
      · cases stepped
      · cases stepped
        refine ⟨h.fits, fun q y hq op hop owner => ?_⟩
        by_cases e : q = p
        · subst e
          rw [goto_self] at hq
          rcases hq with e | e <;> cases e
          exact limit op hop owner
        · rw [goto_ne _ e] at hq
          exact h.pending q y hq op hop owner
    · cases stepped; exact h
  | testTrans p =>
    simp only [LogState.step] at stepped
    split at stepped
    · rename_i x sized
      split at stepped
      · cases stepped
      · cases stepped
        refine h.shrink (Nat.le_refl _) (filter_true _) (goto_logging (fun y hy => ?_))
        rcases hy with e | e <;> cases e
        exact .inl sized
    · cases stepped; exact h
  | append p =>
    simp only [LogState.step] at stepped
    split at stepped
    · rename_i x tested
      exact h.append g tested stepped
    · cases stepped; exact h
  | endOp p =>
    simp only [LogState.step] at stepped
    split at stepped
    · exact h.endOp stepped
    · cases stepped; exact h
  | commitStep p =>
    cases stepped
    exact h.commitStep

theorem header_le_of_admissions
    (run : s.Reached size (fun s a => WithinLimit s a ∧ AdmitsBelow cap s a)) :
    s.lh.length ≤ cap := by
  have inv : GroupInv s ∧ ReserveInv cap s := Reaches.invariant
    (fun s => GroupInv s ∧ ReserveInv cap s)
    (by
      rintro _ rfl
      exact ⟨.initial, Nat.zero_le _, fun _ _ h => by rcases h with e | e <;> cases e⟩)
    (fun s a t h allowed stepped => ⟨h.1.step stepped, h.2.step h.1 allowed.1 allowed.2 stepped⟩)
    run
  have := inv.2.fits
  omega

end Steps

section Reservation
variable {P : Type} [DecidableEq P] {s : LogState P}

/-- In every run in which begin_op only lets an operation in when its blocks fit below
log.size - 1 (and not merely below LOGSIZE), log_write does not find the log too full. -/
theorem reservation_sound
    (run : s.Reached LOGSIZE (fun s a => WithinLimit s a ∧ AdmitsBelow (LOGSIZE - 2) s a))
      (a : LogAct P) :
    s.step LOGSIZE a ≠ .error .tooBigTransaction := by
  have small : s.lh.length ≤ 28 := header_le_of_admissions run
  intro failed
  cases a with
  | logWrite p x =>
    simp only [LogState.step, LOGSIZE, MAXOPBLOCKS] at failed
    split at failed
    · rw [if_neg (by omega)] at failed
      cases failed
    · cases failed
  | beginOp p => cases failed
  | wake p => cases failed
  | testTrans p =>
    simp only [LogState.step] at failed
    split at failed
    · split at failed <;> cases failed
    · cases failed
  | append p =>
    simp only [LogState.step] at failed
    split at failed
    · unfold LogState.append at failed
      split at failed
      · cases failed
      split at failed <;> cases failed
    · cases failed
  | endOp p =>
    simp only [LogState.step] at failed
    split at failed
    · unfold LogState.endOp at failed
      split at failed
      · cases failed
      split at failed <;> cases failed
    · cases failed
  | commitStep p => cases failed

end Reservation

def logCalls (p : P) (xs : List Nat) : List (LogAct P) :=
  xs.flatMap (fun x => [.logWrite p x, .testTrans p, .append p])

/-- Two operations that log ten sectors each keep within the stricter reservation. -/
theorem reservation_sound_two :
    ∃ s : LogState (Fin 3),
      s.Reached LOGSIZE (fun s a => WithinLimit s a ∧ AdmitsBelow (LOGSIZE - 2) s a) ∧
        s.lh.length = 20 ∧
      s.step LOGSIZE (.logWrite 1 19) ≠ .error .tooBigTransaction := by
  have start : ({} : LogState (Fin 3)).Reached LOGSIZE
    (fun s a => WithinLimit s a ∧ AdmitsBelow (LOGSIZE - 2) s a) := .start rfl
  obtain ⟨s, run, full⟩ := start.exists_of_follow
    (.beginOp 0 :: .beginOp 1 :: (logCalls 0 (List.range 10) ++ logCalls 1 (List.range' 10 10)))
    (fun s => s.lh.length = 20) (by decide +kernel)
  exact ⟨s, run, of_decide_eq_true full, reservation_sound run _⟩

/-- begin_op lets three operations in together; when they have logged 29 distinct
sectors, the tenth sector of the third is one too many for log_write. -/
theorem reservation_overrun :
    ∃ s : LogState (Fin 3), s.Reached LOGSIZE (fun s a => WithinLimit s a) ∧
      WithinLimit s (.logWrite 2 29) ∧ s.step LOGSIZE (.logWrite 2 29) =
      .error .tooBigTransaction := by
  have start : ({} : LogState (Fin 3)).Reached LOGSIZE (fun s a => WithinLimit s a) := .start rfl
  obtain ⟨s, run, full⟩ := start.exists_of_follow
    (.beginOp 0 :: .beginOp 1 :: .beginOp 2 ::
      (logCalls 0 (List.range 10) ++ logCalls 1 (List.range' 10 10) ++
        logCalls 2 (List.range' 20 9)))
    (fun s => s.pc 2 = .inside ∧ s.lh.length = 29 ∧ WithinLimit s (.logWrite 2 29))
    (by decide +kernel)
  simp only [decide_eq_true_eq] at full
  refine ⟨s, run, full.2.2, ?_⟩
  simp only [LogState.step, full.1, full.2.1]
  rfl

end MmapXv6
