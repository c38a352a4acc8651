import MmapXv6.Kern.Copies

/-! The calls that copy from a user buffer: every byte is read under the locks of its
file, and the handler must be free to run under them. -/
namespace MmapXv6

open Lib

variable {addr off src : Nat} {ip : Fin NINODE} {k : Kern} {n : Int}

section Writes
variable {p q : Prop} {k₀ k : Kern} {spin base : List Spinlock}
  {busy : List (Fin NINODE)} {lo hi : Nat}

theorem pipewriteLoop_ensures {x total : Nat} (rest i : Nat) (low : lo ≤ addr + i)
    (high : addr + i + rest ≤ hi) (alone : q → base = [])
    (clear : ∀ a, lo ≤ a → a < hi → Clear p q k₀ false (.pipe x :: base) busy a)
    (alike : Alike k₀ k) (hs : k.spin = .pipe x :: base) (hb : k.busy = busy) :
    Ensures (Kern.pipewriteLoop x addr total rest k i) (fun r => Grown k r.2) (Fails p q) := by
  induction rest generalizing i k with
  | zero => exact .refl k
  | succ rest ih =>
    apply (waitUntil_ensures (by simp) alone _ hs).bind
    rintro ⟨ready, k₁⟩ drift
    dsimp only at drift ⊢
    have woken := drift.grown
    split
    · have here : Clear p q k₁ false k₁.spin k₁.busy (addr + i) := by
        rw [woken.spin, woken.busy, hs, hb]
        exact (clear _ low (by omega)).of_alike (alike.trans woken.toAlike)
      apply (get_ensures here).bind
      rintro ⟨b, k₂⟩ ⟨grown, _⟩
      have stored (y : Pipe) : Grown k (k₂.setPipe x y) :=
        (woken.trans grown).trans (setPipe_grown k₂ x y)
      apply (ih (i + 1) (by omega) (by omega) (alike.trans (stored _).toAlike)
        ((stored _).spin.trans hs) ((stored _).busy.trans hb)).mono
      intro r more
      exact (stored _).trans more
    · exact woken

theorem pipewrite_ensures {x : Nat} (quiet : q → k.spin = [])
    (clear : ∀ a, addr ≤ a → a < addr + n.toNat → Clear p q k false (.pipe x :: k.spin) k.busy a) :
    Ensures (Kern.pipewrite k x addr n) (fun r => Grown k r.2) (Fails p q) := by
  apply (acquire_ensures (.pipe x) k).bind
  rintro _ rfl
  have start : Alike k { k with spin := .pipe x :: k.spin } := (Alike.refl k).locks _ _
  apply (pipewriteLoop_ensures n.toNat 0 (by omega) (by omega) quiet clear start rfl rfl).bind
  intro r grown
  apply (onlyIf_ensures _ (fun _ => wakeup_ensures r.2) rfl).bind
  rintro _ rfl
  apply (release_top grown.spin).bind
  rintro _ rfl
  exact ⟨(start.trans grown.toAlike).locks k.spin r.2.busy, rfl, grown.busy⟩

theorem copyIn_ensures {m : Nat} (low : lo ≤ src) (high : src + m ≤ hi)
    (clear : ∀ a, lo ≤ a → a < hi → Clear p q k₀ false spin busy a) (alike : Alike k₀ k)
    (hs : k.spin = spin) (hb : k.busy = busy) :
    Ensures (k.copyIn src m) (fun r => Grown k r.2) (Fails p q) := by
  apply Ensures.foldlM (fun r : List UInt8 × Kern => Grown k r.2) _
    (fun r j member grown => ?_) (.refl k)
  have inside : j < m := List.mem_range.mp member
  have here : Clear p q r.2 false r.2.spin r.2.busy (src + j) := by
    rw [grown.spin, grown.busy, hs, hb]
    exact (clear _ (by omega) (by omega)).of_alike (alike.trans grown.toAlike)
  apply (get_ensures here).bind
  rintro ⟨b, k'⟩ ⟨more, _⟩
  exact grown.trans more

theorem consolewrite_ensures {buf : Nat} (quiet : q → k.spin = [])
    (held : k.busy = ip :: busy) (own : p → ip ∉ busy)
    (clear : ∀ a, buf ≤ a → a < buf + n.toNat → Clear p q k false (.cons :: k.spin) busy a) :
    Ensures (Kern.consolewrite k ip buf n) (fun r => Grown k r.2) (Fails p q) := by
  apply (iunlock_ensures ip k).bind
  rintro _ rfl
  apply (acquire_ensures .cons _).bind
  rintro _ rfl
  have start : Alike k { k with spin := .cons :: k.spin, busy := k.busy.erase ip } :=
    (Alike.refl k).locks _ _
  have erased : k.busy.erase ip = busy := by rw [held, List.erase_cons_head]
  apply (copyIn_ensures (le_refl _) (le_refl _) clear start rfl erased).bind
  intro r grown
  apply (release_top grown.spin).bind
  rintro _ rfl
  have after : r.2.busy = busy := grown.busy.trans erased
  apply (ilock_ensures (k := { r.2 with spin := k.spin })
    (fun hp => by rw [after]; exact own hp) quiet).bind
  intro k' drift
  refine ⟨drift.alike ((start.trans grown.toAlike).locks k.spin (ip :: r.2.busy)), drift.spin, ?_⟩
  rw [drift.busy, held, ← after]

theorem storeData_grown (k : Kern) (ip : Fin NINODE) (off : Nat) (bytes : List UInt8) :
    Grown k (k.storeData ip off bytes) := .setInode k ip rfl

theorem writeiLoop_ensures {n : Nat} (fuel : Nat) {tot : Nat}
    (quiet : q → spin = []) (low : lo ≤ src) (high : src + (n - tot) ≤ hi)
    (clear : ∀ a, lo ≤ a → a < hi → Clear p q k₀ false spin busy a) (alike : Alike k₀ k)
    (hs : k.spin = spin) (hb : k.busy = busy) :
    Ensures (Kern.writeiLoop ip n fuel k src off tot) (Grown k) (Fails p q) := by
  induction fuel generalizing src off tot k with
  | zero => exact ⟨fun _ => by decide, fun _ => by decide⟩
  | succ fuel ih =>
    unfold Kern.writeiLoop
    split
    · apply (bmap_ensures ip _ fun hq => hs.trans (quiet hq)).bind
      intro k₁ h₁
      apply (bread_ensures fun hq => h₁.spin.trans (hs.trans (quiet hq))).bind
      intro k₂ h₂
      have read := (h₁.trans h₂).grown
      apply (copyIn_ensures low (by omega) clear (alike.trans read.toAlike) (read.spin.trans hs)
        (read.busy.trans hb)).bind
      rintro ⟨bytes, k₃⟩ h₃
      apply (logWrite_ensures _).bind
      intro k₄ h₄
      apply (brelse_ensures k₄).bind
      rintro k₄ rfl
      have here := (read.trans h₃).trans ((storeData_grown k₃ ip off bytes).trans h₄.grown)
      apply (ih (by omega) (by omega) (alike.trans here.toAlike) (here.spin.trans hs)
        (here.busy.trans hb)).mono
      intro _ more
      exact here.trans more
    · exact .refl k

theorem growInode_ensures (quiet : q → k.spin = []) :
    Ensures (Kern.growInode ip off k) (Grown k) (Fails p q) := by
  have sized : Grown k (k.setFs (k.vm.fs.setInode ip { k.vm.fs.inode ip with size := off })) :=
    .setInode k ip rfl
  apply (bread_ensures fun hq => sized.spin.trans (quiet hq)).bind
  intro k₁ h₁
  apply (logWrite_ensures k₁).bind
  intro k₂ h₂
  apply (brelse_ensures k₂).mono
  rintro _ rfl
  exact sized.trans (h₁.trans h₂).grown

theorem writei_ensures {n : Nat} (quiet : q → k.spin = [])
    (held : k.busy = ip :: busy) (own : p → ip ∉ busy)
    (device : (k.vm.fs.inode ip).type = .dev → ∀ a, src ≤ a → a < src + (Lib.toInt n).toNat →
      Clear p q k false (.cons :: k.spin) busy a)
    (plain : (k.vm.fs.inode ip).type ≠ .dev → ∀ a, src ≤ a → a < src + n →
      Clear p q k false k.spin k.busy a) :
    Ensures (Kern.writei k ip src off n) (fun r => Grown k r.2) (Fails p q) := by
  unfold Kern.writei
  dsimp only
  split
  · rename_i dev
    split
    · exact consolewrite_ensures quiet held own (device dev)
    · exact .refl k
  · rename_i dev
    split
    · exact .refl k
    · split
      · exact .refl k
      · apply (writeiLoop_ensures _ quiet (le_refl _) (le_refl _) (plain dev)
          (.refl k) rfl rfl).bind
        intro k₁ grown
        have still : q → k₁.spin = [] := fun hq => grown.spin.trans (quiet hq)
        apply (onlyIf_ensures _ (fun _ => growInode_ensures still) (.refl k₁)).bind
        intro k₂ more
        exact grown.trans more

theorem filewriteLoop_ensures {f : Fin NFILE} {n : Nat} (fuel : Nat) {i : Nat}
    (quiet : q → spin = []) (own : p → ip ∉ busy)
    (device : (k₀.vm.fs.inode ip).type = .dev → ∀ a, addr ≤ a → a < addr + n →
      Clear p q k₀ false (.cons :: spin) busy a)
    (plain : (k₀.vm.fs.inode ip).type ≠ .dev → ∀ a, addr ≤ a → a < addr + n →
      Clear p q k₀ false spin (ip :: busy) a)
    (alike : Alike k₀ k) (hs : k.spin = spin) (hb : k.busy = busy) :
    Ensures (Kern.filewriteLoop f ip addr n fuel k i) (fun r => Grown k r.2) (Fails p q) := by
  induction fuel generalizing i k with
  | zero => exact ⟨fun _ => by decide, fun _ => by decide⟩
  | succ fuel ih =>
    unfold Kern.filewriteLoop
    split
    · apply (beginOp_ensures fun hq => hs.trans (quiet hq)).bind
      intro k₁ h₁
      have begun := h₁.grown
      have hs₁ := begun.spin.trans hs
      have hb₁ := begun.busy.trans hb
      apply (ilock_ensures (fun hp => by rw [hb₁]; exact own hp) fun hq =>
        hs₁.trans (quiet hq)).bind
      intro k₂ h₂
      have locked : Alike k k₂ := h₂.alike (begun.toAlike.locks k₁.spin (ip :: k₁.busy))
      have hs₂ : k₂.spin = spin := h₂.spin.trans hs₁
      have hb₂ : k₂.busy = ip :: busy := by rw [h₂.busy, ← hb₁]
      have types := (alike.trans locked).types ip
      apply (writei_ensures (fun hq => hs₂.trans (quiet hq)) hb₂ own ?device ?plain).bind
      case device =>
        intro dev a low high
        rw [types] at dev
        have small : min (n - i) filewriteMax < 2 ^ 31 :=
          (Nat.min_le_right _ _).trans_lt (by decide)
        rw [toInt_small small] at high
        rw [hs₂]
        exact (device dev a (by omega) (by omega)).of_alike (alike.trans locked)
      case plain =>
        intro dev a low high
        rw [types] at dev
        rw [hs₂, hb₂]
        exact (plain dev a (by omega) (by omega)).of_alike (alike.trans locked)
      rintro ⟨r, k₃⟩ h₃
      dsimp only
      have moved : Grown k₂ (if 0 < r then
          k₃.setFs (k₃.vm.fs.setOff f ((k₃.vm.fs.file f).off + r.toNat)) else k₃) := by
        split
        · exact h₃.trans (.setOff k₃ f _)
        · exact h₃
      generalize (if 0 < r then
        k₃.setFs (k₃.vm.fs.setOff f ((k₃.vm.fs.file f).off + r.toNat)) else k₃) = k₄ at moved ⊢
      apply (iunlock_ensures ip k₄).bind
      rintro _ rfl
      have unlocked : Grown k { k₄ with busy := k₄.busy.erase ip } := by
        refine ⟨(locked.trans moved.toAlike).locks k₄.spin _, ?_, ?_⟩
        · rw [moved.spin, hs₂, hs]
        · rw [moved.busy, hb₂, hb, List.erase_cons_head]
      apply (endOp_ensures fun hq => unlocked.spin.trans (hs.trans (quiet hq))).bind
      intro k₅ h₅
      have ended := unlocked.trans h₅.grown
      split
      · exact ended
      · split
        · exact ⟨fun _ => by decide, fun _ => by decide⟩
        · apply (ih (alike.trans ended.toAlike) (ended.spin.trans hs) (ended.busy.trans hb)).mono
          intro r more
          exact ended.trans more
    · exact .refl k

structure FileSource (p q : Prop) (k : Kern) (f : Fin NFILE) (addr n : Nat) : Prop where
  pipe : (k.vm.fs.file f).type = .pipe → ∀ a, addr ≤ a → a < addr + n →
    Clear p q k false (.pipe (k.pipeOf f) :: k.spin) k.busy a
  device : ∀ ip, (k.vm.fs.file f).type = .inode → (k.vm.fs.file f).ip = some ip →
    (k.vm.fs.inode ip).type = .dev → ∀ a, addr ≤ a → a < addr + n →
    Clear p q k false (.cons :: k.spin) k.busy a
  plain : ∀ ip, (k.vm.fs.file f).type = .inode → (k.vm.fs.file f).ip = some ip →
    (k.vm.fs.inode ip).type ≠ .dev → ∀ a, addr ≤ a → a < addr + n →
    Clear p q k false k.spin (ip :: k.busy) a

theorem filewrite_ensures {f : Fin NFILE}
    (own : p → ∀ ip, (k.vm.fs.file f).type = .inode → (k.vm.fs.file f).ip = some ip → ip ∉ k.busy)
    (quiet : q → k.spin = []) (source : FileSource p q k f addr n.toNat) :
    Ensures (Kern.filewrite k f addr n) (fun r => Grown k r.2) (Fails p q) := by
  unfold Kern.filewrite
  dsimp only
  split
  · exact .refl k
  · split
    · rename_i type
      exact pipewrite_ensures quiet (source.pipe type)
    · exact ⟨fun _ => by decide, fun _ => by decide⟩
    · exact ⟨fun _ => by decide, fun _ => by decide⟩
    · rename_i ip type found
      apply (filewriteLoop_ensures _ quiet (fun hp => own hp ip type found)
        (source.device ip type found) (source.plain ip type found) (.refl k) rfl rfl).bind
      intro r grown
      exact grown

end Writes

end MmapXv6
