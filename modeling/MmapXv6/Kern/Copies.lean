import MmapXv6.Kern.Waits
import MmapXv6.Vm.Fault
import MmapXv6.Vm.Fails

/-! What a copy between the kernel and a user buffer guarantees. Pages of the process
only come, and everything that decides which file the handler would read for an
address stays, so a condition on the state before a call holds at each of its bytes. -/
namespace MmapXv6

open Lib Function

variable {addr dst off : Nat} {busy : List (Fin NINODE)} {ip : Fin NINODE} {k k' k'' : Kern}
  {n : Int} {spin : List Spinlock} {w : Bool}

structure Alike (k k' : Kern) : Prop where
  proc : k'.vm.proc = { k.vm.proc with pgdir := k'.vm.proc.pgdir }
  files : SameOpen k.vm.fs k'.vm.fs
  types : ∀ i, (k'.vm.fs.inode i).type = (k.vm.fs.inode i).type
  pages : ∀ a w, (k.vm.admits a w false).isSome → (k'.vm.admits a w false).isSome
  console : k'.console = k.console
  pipeOf : k'.pipeOf = k.pipeOf

structure Grown (k k' : Kern) : Prop extends Alike k k' where
  spin : k'.spin = k.spin
  busy : k'.busy = k.busy

theorem Alike.refl (k : Kern) : Alike k k :=
  ⟨rfl, fun _ => rfl, fun _ => rfl, fun _ _ h => h, rfl, rfl⟩

theorem Alike.trans (h : Alike k k') (h' : Alike k' k'') : Alike k k'' where
  proc := by rw [h'.proc, h.proc]
  files := h.files.trans h'.files
  types i := (h'.types i).trans (h.types i)
  pages a w there := h'.pages a w (h.pages a w there)
  console := h'.console.trans h.console
  pipeOf := h'.pipeOf.trans h.pipeOf

theorem Grown.refl (k : Kern) : Grown k k := ⟨.refl k, rfl, rfl⟩

theorem Grown.trans (h : Grown k k') (h' : Grown k' k'') : Grown k k'' :=
  ⟨h.toAlike.trans h'.toAlike, h'.spin.trans h.spin, h'.busy.trans h.busy⟩

theorem Drift.grown (h : Drift k k') : Grown k k' := by
  obtain ⟨_, _, _, rfl⟩ := h
  exact ⟨⟨rfl, fun _ => rfl, fun _ => rfl, fun _ _ h => h, rfl, rfl⟩, rfl, rfl⟩

theorem Alike.locks (h : Alike k k') (spin : List Spinlock) (busy : List (Fin NINODE)) :
    Alike k { k' with spin := spin, busy := busy } :=
  ⟨h.proc, h.files, h.types, h.pages, h.console, h.pipeOf⟩

theorem Drift.alike (drift : Drift k' k'') (h : Alike k k') : Alike k k'' :=
  h.trans drift.grown.toAlike

theorem Grown.setOff (k : Kern) (f : Fin NFILE) (off : Nat) :
    Grown k (k.setFs (k.vm.fs.setOff f off)) :=
  ⟨⟨rfl, .setOff _ _ _, fun _ => rfl, fun _ _ h => h, rfl, rfl⟩, rfl, rfl⟩

theorem Grown.setInode (k : Kern) (ip : Fin NINODE) {inode : Inode}
    (type : inode.type = (k.vm.fs.inode ip).type) :
    Grown k (k.setFs (k.vm.fs.setInode ip inode)) := by
  refine ⟨⟨rfl, fun _ => rfl, fun i => ?_, fun _ _ h => h, rfl, rfl⟩, rfl, rfl⟩
  by_cases e : i = ip
  · subst e
    simpa [Kern.setFs, Fs.setInode] using type
  · simp [Kern.setFs, Fs.setInode, e]

/-- The file that the handler reads for an access to a, if the access needs it to. -/
def Kern.loads (k : Kern) (a : Nat) (write : Bool) : Option (Fin NFILE) :=
  if (k.vm.admits a write false).isSome ∨
    k.vm.proc.sstack ≤ a ∧ a < (k.vm.proc.sstack + MAXSTACKPAGES * PGSIZE) % 2 ^ 32 then none
  else ((mmapin k.vm.proc.ommap a).bind fun i => (k.vm.proc.ommap i).pfile).filter
    fun f => (k.vm.fs.file f).readable

theorem Alike.loads (h : Alike k k') {a : Nat} {g : Fin NFILE}
    (found : k'.loads a w = some g) : k.loads a w = some g := by
  have window := h.proc
  unfold Kern.loads at found ⊢
  split at found
  · cases found
  · rename_i out
    push Not at out
    rw [if_neg]
    · rw [h.proc] at found
      simpa only [h.files.readable] using found
    · rintro (there | inside)
      · exact absurd (h.pages a w there) out.1
      · rw [h.proc] at out
        exact absurd inside.2 (Nat.not_lt.mpr (out.2 inside.1))

section Bytes
variable {p q : Prop} {k : Kern}

theorem fill_pages {s : Vm} {v : Nat} {e : Pte} (there : s.entry v = some e) (page : Lib.Bytes)
    (a : Nat) (w : Bool) (old : (s.admits a w false).isSome) :
    ((s.fill v e page).admits a w false).isSome := by
  unfold Vm.admits at old ⊢
  rw [Vm.fill_entry there]
  by_cases h : a / PGSIZE = v
  · rw [h, there] at old
    rw [h, update_self]
    simpa [Pte.admits, Option.filter] using old
  · rw [update_of_ne h]
    exact old

theorem putResident_ensures (a : Nat) (b : UInt8) :
    Ensures (k.putResident a b) (Grown k) (Fails p q) := by
  unfold Kern.putResident
  split
  · exact ⟨fun _ => by decide, fun _ => by decide⟩
  · rename_i e there
    have present := Vm.admits_some there
    exact ⟨⟨rfl, fun _ => rfl, fun _ => rfl, fill_pages present _, rfl, rfl⟩, rfl, rfl⟩

theorem getResident_ensures (a : Nat) :
    Ensures (k.getResident a) (fun r => r.2 = k ∧ (k.vm.admits a false false).isSome)
      (Fails p q) := by
  unfold Kern.getResident
  split
  · exact ⟨fun _ => by decide, fun _ => by decide⟩
  · rename_i e there
    exact ⟨rfl, by rw [there]; rfl⟩

theorem paged_grown {u : Uvm} {v : Nat} (paged : Paged k.vm.uvm u v) :
    Grown k { k with vm := k.vm.setUvm u } := by
  refine ⟨⟨rfl, fun _ => rfl, fun _ => rfl, fun a w old => ?_, rfl, rfl⟩, rfl, rfl⟩
  change (Option.filter _ (u.pgdir.entry (a / PGSIZE))).isSome
  rcases paged.entry with same | ⟨pa, added⟩
  · rw [same]
    exact old
  · rw [added]
    by_cases h : a / PGSIZE = v
    · rw [h, update_self]
      simp [Pte.admits, userPte, Option.filter]
    · rw [update_of_ne h]
      exact old

end Bytes

/-- A byte copy that works wherever the process is like k, its locks are as given and
the address is in the range. -/
def Copier (put : Kern → Nat → UInt8 → Except Panic Kern) (k : Kern) (spin : List Spinlock)
    (busy : List (Fin NINODE)) (lo hi : Nat) (fails : Panic → Prop) : Prop :=
  ∀ k' a b, Alike k k' → k'.spin = spin → k'.busy = busy → lo ≤ a → a < hi →
    Ensures (put k' a b) (Grown k') fails

section Reads
variable {p q : Prop} {put : Kern → Nat → UInt8 → Except Panic Kern} {k₀ k : Kern}
  {spin base : List Spinlock} {busy : List (Fin NINODE)} {lo hi : Nat}

theorem setPipe_grown (k : Kern) (x : Nat) (y : Pipe) : Grown k (k.setPipe x y) :=
  Drift.grown ⟨_, _, _, rfl⟩

theorem setInput_grown (k : Kern) (x : Input) : Grown k (k.setInput x) :=
  Drift.grown ⟨_, _, _, rfl⟩

theorem pipereadLoop_ensures {x : Nat} (n i : Nat) (low : lo ≤ addr + i)
    (high : addr + i + n ≤ hi) (copier : Copier put k₀ spin busy lo hi (Fails p q))
    (alike : Alike k₀ k) (hs : k.spin = spin) (hb : k.busy = busy) :
    Ensures (Kern.pipereadLoop put x addr n k i) (fun r => Grown k r.2) (Fails p q) := by
  induction n generalizing i k with
  | zero => exact .refl k
  | succ n ih =>
    unfold Kern.pipereadLoop
    split
    · exact .refl k
    · have taken := setPipe_grown k x (k.world.pipe x).advance
      apply (copier _ _ _ (alike.trans taken.toAlike) hs hb low (by omega)).bind
      intro k' grown
      have here := taken.trans grown
      apply (ih (i + 1) (by omega) (by omega) (alike.trans here.toAlike) (here.spin.trans hs)
        (here.busy.trans hb)).mono
      intro r more
      exact here.trans more

theorem piperead_ensures {x : Nat} (quiet : q → k.spin = [])
    (copier : Copier put k (.pipe x :: k.spin) k.busy addr (addr + n.toNat) (Fails p q)) :
    Ensures (Kern.piperead put k x addr n) (fun r => Grown k r.2) (Fails p q) := by
  apply (acquire_ensures (.pipe x) k).bind
  rintro _ rfl
  apply (waitUntil_ensures (k := { k with spin := .pipe x :: k.spin }) (by simp) quiet _ rfl).bind
  rintro ⟨ready, _⟩ ⟨w, ws, m, rfl⟩
  dsimp only
  have woken : Alike k { k with spin := .pipe x :: k.spin, world := w, waits := ws, logged := m } :=
    ⟨rfl, fun _ => rfl, fun _ => rfl, fun _ _ h => h, rfl, rfl⟩
  split
  · apply (pipereadLoop_ensures n.toNat 0 (by omega) (by omega) copier woken rfl rfl).bind
    intro r grown
    apply (wakeup_ensures r.2).bind
    rintro _ rfl
    apply (release_top grown.spin).bind
    rintro _ rfl
    exact ⟨(woken.trans grown.toAlike).locks k.spin r.2.busy, rfl, grown.busy⟩
  · apply (release_top rfl).bind
    rintro _ rfl
    exact Drift.grown ⟨w, ws, m, rfl⟩

theorem consolereadLoop_ensures {target : Nat} (n : Nat)
    (alone : q → base = []) (low : lo ≤ dst) (high : dst + n ≤ hi)
    (copier : Copier put k₀ (.input :: base) busy lo hi (Fails p q)) (alike : Alike k₀ k)
    (hs : k.spin = .input :: base) (hb : k.busy = busy) :
    Ensures (Kern.consolereadLoop put target n k dst) (fun r => Grown k r.2) (Fails p q) := by
  induction n generalizing dst k with
  | zero => exact .refl k
  | succ n ih =>
    apply (waitUntil_ensures (by decide) alone _ hs).bind
    rintro ⟨ready, k₁⟩ drift
    dsimp only at drift ⊢
    have woken := drift.grown
    split
    · split
      · split
        · exact woken
        · exact woken.trans (setInput_grown k₁ _)
      · have taken :=
          woken.trans (setInput_grown k₁ { k₁.world.input with r := k₁.world.input.r + 1 })
        apply (copier _ _ _ (alike.trans taken.toAlike) (taken.spin.trans hs) (taken.busy.trans hb)
          low (by omega)).bind
        intro k' grown
        have here := taken.trans grown
        split
        · exact here
        · apply (ih (by omega) (by omega) (alike.trans here.toAlike) (here.spin.trans hs)
            (here.busy.trans hb)).mono
          intro r more
          exact here.trans more
    · exact woken

theorem consoleread_ensures (quiet : q → k.spin = [])
    (held : k.busy = ip :: busy) (own : p → ip ∉ busy)
    (copier : Copier put k (.input :: k.spin) busy dst (dst + n.toNat) (Fails p q)) :
    Ensures (Kern.consoleread put k ip dst n) (fun r => Grown k r.2) (Fails p q) := by
  apply (iunlock_ensures ip k).bind
  rintro _ rfl
  apply (acquire_ensures .input _).bind
  rintro _ rfl
  have start : Alike k { k with spin := .input :: k.spin, busy := k.busy.erase ip } :=
    (Alike.refl k).locks _ _
  have erased : k.busy.erase ip = busy := by rw [held, List.erase_cons_head]
  apply (consolereadLoop_ensures n.toNat quiet (le_refl _) (le_refl _) copier start rfl erased).bind
  intro r grown
  apply (release_top grown.spin).bind
  rintro _ rfl
  have after : r.2.busy = busy := grown.busy.trans erased
  apply (ilock_ensures (k := { r.2 with spin := k.spin })
    (fun hp => by rw [after]; exact own hp) quiet).bind
  intro k' drift
  have done : Grown k k' := by
    refine ⟨drift.alike ((start.trans grown.toAlike).locks k.spin (ip :: r.2.busy)), drift.spin, ?_⟩
    rw [drift.busy, held, ← after]
  cases r.1 with
  | none => exact done
  | some left => exact done

theorem copyOut_ensures {m : Nat} (low : lo ≤ dst)
    (high : dst + m ≤ hi) (copier : Copier put k₀ spin busy lo hi (Fails p q)) (alike : Alike k₀ k)
    (hs : k.spin = spin) (hb : k.busy = busy) :
    Ensures (Kern.copyOut put ip dst off m k) (Grown k) (Fails p q) := by
  apply Ensures.foldlM (Grown k) _ (fun k' j member grown => ?_) (.refl k)
  have inside : j < m := List.mem_range.mp member
  apply (copier k' _ _ (alike.trans grown.toAlike) (grown.spin.trans hs) (grown.busy.trans hb)
    (by omega) (by omega)).mono
  intro _ more
  exact grown.trans more

theorem readiLoop_ensures {n : Nat} (fuel : Nat) {tot : Nat}
    (quiet : q → spin = []) (low : lo ≤ dst) (high : dst + (n - tot) ≤ hi)
    (copier : Copier put k₀ spin busy lo hi (Fails p q)) (alike : Alike k₀ k)
    (hs : k.spin = spin) (hb : k.busy = busy) :
    Ensures (Kern.readiLoop put ip n fuel k dst off tot) (Grown k) (Fails p q) := by
  induction fuel generalizing dst off tot k with
  | zero => exact ⟨fun _ => by decide, fun _ => by decide⟩
  | succ fuel ih =>
    unfold Kern.readiLoop
    split
    · apply (bmap_ensures ip _ fun hq => hs.trans (quiet hq)).bind
      intro k₁ h₁
      apply (bread_ensures fun hq => h₁.spin.trans (hs.trans (quiet hq))).bind
      intro k₂ h₂
      have read := (h₁.trans h₂).grown
      apply (copyOut_ensures low (by omega) copier (alike.trans read.toAlike) (read.spin.trans hs)
        (read.busy.trans hb)).bind
      intro k₃ h₃
      apply (brelse_ensures k₃).bind
      rintro k₃ rfl
      have here := read.trans h₃
      apply (ih (by omega) (by omega) (alike.trans here.toAlike) (here.spin.trans hs)
        (here.busy.trans hb)).mono
      intro _ more
      exact here.trans more
    · exact .refl k

def readCount (inode : Inode) (off n : Nat) : Nat :=
  if inode.size < off ∨ (off + n) % 2 ^ 32 < off then 0
  else if inode.size < off + n then inode.size - off else n

theorem readi_ensures {n : Nat} (quiet : q → k.spin = [])
    (held : k.busy = ip :: busy) (own : p → ip ∉ busy)
    (device : (k.vm.fs.inode ip).type = .dev → k.console ip = true →
      Copier put k (.input :: k.spin) busy dst (dst + (Lib.toInt n).toNat) (Fails p q))
    (plain : (k.vm.fs.inode ip).type ≠ .dev →
      Copier put k k.spin k.busy dst (dst + readCount (k.vm.fs.inode ip) off n) (Fails p q)) :
    Ensures (Kern.readi put k ip dst off n) (fun r => Grown k r.2) (Fails p q) := by
  unfold Kern.readi
  dsimp only
  split
  · rename_i dev
    split
    · rename_i console
      exact consoleread_ensures quiet held own (device dev console)
    · exact .refl k
  · rename_i dev
    split
    · exact .refl k
    · rename_i within
      have count : readCount (k.vm.fs.inode ip) off n =
          if (k.vm.fs.inode ip).size < off + n then (k.vm.fs.inode ip).size - off else n :=
        if_neg within
      rw [← count]
      apply (readiLoop_ensures _ quiet (le_refl _) (le_refl _) (plain dev) (.refl k) rfl rfl).bind
      intro _ grown
      exact grown

structure FileCopier (put : Kern → Nat → UInt8 → Except Panic Kern) (k : Kern) (f : Fin NFILE)
    (addr : Nat) (n : Int) (fails : Panic → Prop) : Prop where
  pipe : (k.vm.fs.file f).type = .pipe →
    Copier put k (.pipe (k.pipeOf f) :: k.spin) k.busy addr (addr + n.toNat) fails
  device : ∀ ip, (k.vm.fs.file f).type = .inode → (k.vm.fs.file f).ip = some ip →
    (k.vm.fs.inode ip).type = .dev → k.console ip = true →
    Copier put k (.input :: k.spin) k.busy addr (addr + (Lib.toInt (n % 2 ^ 32).toNat).toNat) fails
  plain : ∀ ip, (k.vm.fs.file f).type = .inode → (k.vm.fs.file f).ip = some ip →
    (k.vm.fs.inode ip).type ≠ .dev → Copier put k k.spin (ip :: k.busy) addr
      (addr + readCount (k.vm.fs.inode ip) (k.vm.fs.file f).off (n % 2 ^ 32).toNat) fails

theorem Copier.of_alike {fails : Panic → Prop} (copier : Copier put k₀ spin busy lo hi fails)
    (alike : Alike k₀ k) : Copier put k spin busy lo hi fails :=
  fun k' a b next => copier k' a b (alike.trans next)

theorem fileread_ensures {f : Fin NFILE}
    (own : p → ∀ ip, (k.vm.fs.file f).type = .inode → (k.vm.fs.file f).ip = some ip → ip ∉ k.busy)
    (quiet : q → k.spin = []) (copier : FileCopier put k f addr n (Fails p q)) :
    Ensures (Kern.fileread put k f addr n) (fun r => Grown k r.2) (Fails p q) := by
  unfold Kern.fileread
  dsimp only
  split
  · exact .refl k
  · split
    · rename_i type
      exact piperead_ensures quiet (copier.pipe type)
    · exact ⟨fun _ => by decide, fun _ => by decide⟩
    · exact ⟨fun _ => by decide, fun _ => by decide⟩
    · rename_i ip type found
      have free := fun hp => own hp ip type found
      apply (ilock_ensures free quiet).bind
      intro k₁ locked
      have alike : Alike k k₁ := locked.alike ((Alike.refl k).locks k.spin (ip :: k.busy))
      have hs : k₁.spin = k.spin := locked.spin
      have hb : k₁.busy = ip :: k.busy := locked.busy
      have vm : k₁.vm = k.vm := locked.vm
      apply (readi_ensures (fun hq => hs.trans (quiet hq)) hb free (fun dev console => ?_)
        (fun dev => ?_)).bind
      · intro r grown
        -- the offset moves, then the inode is unlocked
        have moved : Grown k₁ (if 0 < r.1 then
            r.2.setFs (r.2.vm.fs.setOff f ((r.2.vm.fs.file f).off + r.1.toNat)) else r.2) := by
          split
          · exact grown.trans (.setOff _ _ _)
          · exact grown
        apply (iunlock_ensures ip _).bind
        rintro _ rfl
        refine ⟨(alike.trans moved.toAlike).locks _ _, moved.spin.trans hs, ?_⟩
        rw [moved.busy, hb, List.erase_cons_head]
      · rw [vm] at dev
        rw [hs]
        exact (copier.device ip type found dev (alike.console ▸ console)).of_alike alike
      · rw [vm] at dev ⊢
        rw [hs, hb]
        exact (copier.plain ip type found dev).of_alike alike

theorem putResident_copier {fails : Panic → Prop} (allowed : fails .absentPage) :
    Copier Kern.putResident k spin busy lo hi fails := by
  intro k' a b _ _ _ _ _
  unfold Kern.putResident
  split
  · exact allowed
  · rename_i e there
    have present := Vm.admits_some there
    exact ⟨⟨rfl, fun _ => rfl, fun _ => rfl, fill_pages present _, rfl, rfl⟩, rfl, rfl⟩

end Reads

theorem MemFails.fails {p q : Prop} {e : Panic} (h : MemFails e) : Fails p q e := by
  rcases h with rfl | rfl | rfl | rfl <;> exact ⟨fun _ => by decide, fun _ => by decide⟩

section Faults
variable {p q : Prop} {k : Kern} {a : Nat}

theorem fileseek_ensures {fs : Fs} {f : Fin NFILE} {n : Nat} :
    Ensures (fileseek fs f n) (fun fs' => ∃ off, fs' = fs.setOff f off) (Fails p q) := by
  unfold fileseek
  split
  · exact ⟨fun _ => by decide, fun _ => by decide⟩
  · split
    · exact ⟨_, rfl⟩
    · exact ⟨_, rfl⟩

/-- An access to a in the state k while the given locks are held: the handler locks no
inode of this process and waits under no spinlock. With the console lock held it stops
at its first message, before any wait. -/
structure Clear (p q : Prop) (k : Kern) (w : Bool) (spin : List Spinlock)
    (busy : List (Fin NINODE)) (a : Nat) : Prop where
  own : p → ∀ g ip, k.loads a w = some g → (k.vm.fs.file g).type = .inode →
    (k.vm.fs.file g).ip = some ip → ip ∉ busy
  quiet : q → spin = [] ∨ .cons ∈ spin ∨ k.loads a w = none

theorem Clear.of_alike
    (clear : Clear p q k w spin busy a) (alike : Alike k k') : Clear p q k' w spin busy a where
  own hp g ip found type file := by
    rw [alike.files.type] at type
    rw [alike.files.ip] at file
    exact clear.own hp g ip (alike.loads found) type file
  quiet hq := by
    refine (clear.quiet hq).imp_right (Or.imp_right fun none => ?_)
    cases found : k'.loads a w with
    | none => rfl
    | some g =>
      rw [alike.loads found] at none
      cases none

theorem Clear.of_admits
    (there : (k.vm.admits a w false).isSome) : Clear p q k w spin busy a := by
  have resident : k.loads a w = none := if_pos (.inl there)
  exact ⟨fun _ _ _ found => by simp [resident] at found, fun _ => .inr (.inr resident)⟩

theorem fault_cons_held (held : .cons ∈ k.spin) : k.fault a = .error .acquire := by
  have stops : k.cprintf = .error .acquire := by
    simp [Kern.cprintf, Kern.withLock, Kern.acquire, held, bind, Except.bind]
  unfold Kern.fault
  rw [stops]
  split
  · rfl
  · split <;> rfl

theorem fault_ensures (absent : ¬(k.vm.admits a w false).isSome)
    (clear : Clear p q k w k.spin k.busy a) : Ensures (k.fault a) (Grown k) (Fails p q) := by
  by_cases held : .cons ∈ k.spin
  · rw [fault_cons_held held]
    exact ⟨fun _ => by decide, fun _ => by decide⟩
  unfold Kern.fault
  split
  · apply (withLock_ensures .cons k).bind
    rintro k rfl
    apply (withLock_ensures .kmem k).bind
    rintro k rfl
    cases done : allocuvm k.vm.uvm (PGROUNDDOWN a) ((PGROUNDDOWN a + PGSIZE) % 2 ^ 32) with
    | error e => exact ((allocuvm_fails _ _ _).of_error done).fails
    | ok r =>
      dsimp only [ok_bind]
      split
      · exact ⟨fun _ => by decide, fun _ => by decide⟩
      · rename_i served
        exact paged_grown (allocuvm_fault (by omega) done served)
  · rename_i window
    split
    · rename_i i found
      have word : a < 2 ^ 32 := by
        have := (mmapin_some (p := k.vm.proc) found).2.2
        omega
      apply (withLock_ensures .cons k).bind
      rintro k rfl
      apply (withLock_ensures .kmem k).bind
      rintro k rfl
      cases done : allocuvm k.vm.uvm (PGROUNDDOWN a) ((PGROUNDDOWN a + PGSIZE) % 2 ^ 32) with
      | error e => exact ((allocuvm_fails _ _ _).of_error done).fails
      | ok r =>
      obtain ⟨r, u⟩ := r
      dsimp only [ok_bind]
      split
      · exact ⟨fun _ => by decide, fun _ => by decide⟩
      rename_i served
      have grown := paged_grown (k := k) (allocuvm_fault word done served)
      split
      · exact ⟨fun _ => by decide, fun _ => by decide⟩
      · rename_i f mapped
        apply fileseek_ensures.bind
        rintro _ ⟨off, rfl⟩
        have sought := grown.trans (.setOff { k with vm := k.vm.setUvm u } f off)
        generalize Kern.setFs { k with vm := k.vm.setUvm u } ((k.vm.setUvm u).fs.setOff f off) = k'
          at sought ⊢
        have read : Ensures (Kern.fileread Kern.putResident k' f (PGROUNDDOWN a) PGSIZE)
            (fun r => Grown k' r.2) (Fails p q) := by
          by_cases readable : (k.vm.fs.file f).readable
          · have loads : k.loads a w = some f := by
              unfold Kern.loads
              rw [if_neg fun h => h.elim absent window, found]
              simp [mapped, readable]
            apply fileread_ensures
            · intro hp ip type file
              rw [sought.files.type] at type
              rw [sought.files.ip] at file
              rw [sought.busy]
              exact clear.own hp f ip loads type file
            · intro hq
              rw [sought.spin]
              exact (clear.quiet hq).resolve_right (by simp [loads, held])
            · have any : ∀ spin busy lo hi, Copier Kern.putResident k' spin busy lo hi
                  (Fails p q) :=
                fun _ _ _ _ => putResident_copier ⟨fun _ => by decide, fun _ => by decide⟩
              exact ⟨fun _ => any _ _ _ _, fun _ _ _ _ _ => any _ _ _ _, fun _ _ _ _ => any _ _ _ _⟩
          · -- an unreadable file costs no lock
            unfold Kern.fileread
            dsimp only
            rw [if_pos (by rw [sought.files.readable]; exact readable)]
            exact .refl k'
        apply read.bind
        intro r more
        exact sought.trans more
    · apply (withLock_ensures .cons k).bind
      intro _ _
      exact ⟨fun _ => by decide, fun _ => by decide⟩

theorem put_ensures (b : UInt8) (clear : Clear p q k true k.spin k.busy a) :
    Ensures (k.put a b) (Grown k) (Fails p q) := by
  unfold Kern.put
  split
  · exact putResident_ensures a b
  · rename_i none
    apply (fault_ensures (by simp [none]) clear).bind
    intro k' grown
    exact (putResident_ensures a b).mono fun _ more => grown.trans more

theorem get_ensures (clear : Clear p q k false k.spin k.busy a) :
    Ensures (k.get a) (fun r => Grown k r.2 ∧ (r.2.vm.admits a false false).isSome)
      (Fails p q) := by
  unfold Kern.get
  split
  · apply (getResident_ensures a).mono
    rintro r ⟨rfl, there⟩
    exact ⟨.refl _, there⟩
  · rename_i none
    apply (fault_ensures (by simp [none]) clear).bind
    intro k' grown
    apply (getResident_ensures a).mono
    rintro r ⟨rfl, there⟩
    exact ⟨grown, there⟩

theorem put_copier {lo hi : Nat}
    (clear : ∀ a, lo ≤ a → a < hi → Clear p q k true spin busy a) :
    Copier Kern.put k spin busy lo hi (Fails p q) := by
  rintro k' a b alike rfl rfl low high
  exact put_ensures b ((clear a low high).of_alike alike)

end Faults

end MmapXv6
