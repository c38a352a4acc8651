import MmapXv6.Vm.Fails
import MmapXv6.Vm.Fault

/-! What the address space of one process does to the file table. A page fault, mmap,
munmap and the unmapping loop of exit move offsets and change nothing else in it, and
they end in a panic of fileread or filewrite only through a mapping whose file table
entry is free. -/
namespace MmapXv6

open Lib Function

def NotFile (e : Panic) : Prop := e ≠ .fileread ∧ e ≠ .filewrite

theorem MemFails.notFile {e : Panic} (h : MemFails e) : NotFile e := by
  rcases h with rfl | rfl | rfl | rfl <;> exact ⟨by decide, by decide⟩

theorem SameOpen.refl (fs : Fs) : SameOpen fs fs := fun _ => rfl

section Calls
variable {fs : Fs} {f : Fin NFILE}

theorem fileseek_upkeep (fs : Fs) (f : Fin NFILE) (n : Nat) :
    Ensures (fileseek fs f n) (SameOpen fs) NotFile := by
  unfold fileseek
  split
  · exact ⟨by decide, by decide⟩
  · split <;> exact .setOff _ _ _

theorem fileread_upkeep (taken : (fs.file f).type ≠ .none) (n : Nat) :
    Ensures (fileread fs f n) (fun r => SameOpen fs r.2.2) NotFile := by
  unfold fileread
  dsimp only
  split
  · exact .refl _
  · split
    · exact ⟨by decide, by decide⟩
    · rename_i free
      exact absurd free taken
    · exact ⟨by decide, by decide⟩
    · rename_i i _ _
      have read : Ensures (readi (fs.inode i) (fs.file f).off n) (fun _ => True) NotFile := by
        unfold readi
        split
        · exact ⟨by decide, by decide⟩
        · split <;> trivial
      refine read.bind fun ⟨r, bytes⟩ _ => ?_
      split
      · exact .setOff _ _ _
      · exact .refl _

theorem filewriteLoop_upkeep (i : Fin NINODE) (src : Bytes) (n fuel : Nat) (fs : Fs) (done : Nat) :
    Ensures (filewriteLoop f i src n fuel fs done) (fun r => SameOpen fs r.2) NotFile := by
  induction fuel generalizing fs done with
  | zero => exact ⟨by decide, by decide⟩
  | succ fuel ih =>
    unfold filewriteLoop
    split
    · generalize (if filewriteMax < n - done then filewriteMax else n - done) = n1
      have written : ∀ ip src off n, Ensures (writei ip src off n) (fun _ => True) NotFile := by
        intro ip src off n
        unfold writei
        split
        · exact ⟨by decide, by decide⟩
        · split
          · trivial
          · split <;> trivial
      refine (written _ _ _ _).bind fun ⟨r, ip⟩ _ => ?_
      dsimp only
      split
      · exact .refl _
      · split
        · exact ⟨by decide, by decide⟩
        · exact (ih _ _).mono fun r same => (SameOpen.setOff (fs.setInode i ip) f _).trans same
    · exact .refl _

theorem filewrite_upkeep (taken : (fs.file f).type ≠ .none) (src : Bytes) (n : Nat) :
    Ensures (filewrite fs f src n) (fun r => SameOpen fs r.2) NotFile := by
  unfold filewrite
  dsimp only
  split
  · exact .refl _
  · split
    · exact ⟨by decide, by decide⟩
    · rename_i free
      exact absurd free taken
    · exact ⟨by decide, by decide⟩
    · exact (filewriteLoop_upkeep _ _ _ _ _ _).bind fun _ same => same

end Calls

/-- The same descriptors and open files, and no mapping that was not there. -/
structure Upkeep (s t : Vm) : Prop where
  files : SameOpen s.fs t.fs
  ofile : t.proc.ofile = s.proc.ofile
  state : t.proc.state = s.proc.state
  ommap : ∀ i, Live t.proc i → t.proc.ommap i = s.proc.ommap i

theorem Upkeep.refl (s : Vm) : Upkeep s s := ⟨.refl _, rfl, rfl, fun _ _ => rfl⟩

theorem Upkeep.trans {s t u : Vm} (h : Upkeep s t) (h' : Upkeep t u) : Upkeep s u where
  files := h.files.trans h'.files
  ofile := h'.ofile.trans h.ofile
  state := h'.state.trans h.state
  ommap := by
    intro i live
    have same := h'.ommap i live
    rw [same]
    apply h.ommap i
    rw [Live, ← same]
    exact live

def Vm.Taken (s : Vm) : Prop :=
  ∀ i f, (s.proc.ommap i).pfile = some f → (s.fs.file f).type ≠ .none

theorem Upkeep.taken {s t : Vm} (h : Upkeep s t) (taken : s.Taken) : t.Taken := by
  intro i f mapped
  rw [h.files.type]
  apply taken i
  rw [← h.ommap i (by rw [Live, mapped]; rfl)]
  exact mapped

section Faults
variable {s : Vm} (taken : s.Taken)
include taken

theorem loadMapped_upkeep (u : Uvm) (i : Fin MAXMAPPEDFILES) (base : Nat) :
    Ensures (loadMapped (s.setUvm u) (s.proc.ommap i) base) (Upkeep s) NotFile := by
  unfold loadMapped
  split
  · exact ⟨by decide, by decide⟩
  · rename_i f mapped
    refine (fileseek_upkeep _ f _).bind fun fs sought => ?_
    have type : (fs.file f).type ≠ .none := by
      rw [sought.type]
      exact taken i f mapped
    refine (fileread_upkeep type _).bind fun ⟨r, bytes, fs'⟩ read => ?_
    have same : SameOpen s.fs fs' := sought.trans read
    dsimp only
    split
    · exact ⟨same, rfl, rfl, fun _ _ => rfl⟩
    · split
      · exact ⟨by decide, by decide⟩
      · exact ⟨same, rfl, rfl, fun _ _ => rfl⟩

theorem trap_upkeep (cr2 : Nat) (user : Bool) :
    Ensures (trap s cr2 user) (Upkeep s) NotFile := by
  unfold trap
  dsimp only
  split
  · cases grown : allocuvm s.uvm (PGROUNDDOWN cr2) ((PGROUNDDOWN cr2 + PGSIZE) % 2 ^ 32) with
    | error e => exact ((allocuvm_fails _ _ _).of_error grown).notFile
    | ok r =>
      dsimp only [ok_bind]
      split
      · exact ⟨by decide, by decide⟩
      · exact ⟨.refl _, rfl, rfl, fun _ _ => rfl⟩
  · split
    · cases grown : allocuvm s.uvm (PGROUNDDOWN cr2) ((PGROUNDDOWN cr2 + PGSIZE) % 2 ^ 32) with
      | error e => exact ((allocuvm_fails _ _ _).of_error grown).notFile
      | ok r =>
        dsimp only [ok_bind]
        split
        · exact ⟨by decide, by decide⟩
        · exact loadMapped_upkeep taken _ _ _
    · split
      · exact ⟨.refl _, rfl, rfl, fun _ _ => rfl⟩
      · exact ⟨by decide, by decide⟩

theorem access_upkeep (a : Nat) (write user : Bool) :
    Ensures (s.access a write user) (fun r => Upkeep s r.2) NotFile := by
  unfold Vm.access
  split
  · exact .refl _
  · refine (trap_upkeep taken a user).bind fun t kept => ?_
    split
    · exact kept
    · split
      · exact kept
      · exact ⟨by decide, by decide⟩

theorem load_upkeep (a : Nat) : Ensures (s.load a) (fun r => Upkeep s r.2) NotFile := by
  refine (access_upkeep taken a false true).bind fun ⟨r, t⟩ kept => ?_
  cases r <;> exact kept

theorem store_upkeep (a : Nat) (b : UInt8) (user : Bool) :
    Ensures (s.store a b user) (fun r => Upkeep s r.2) NotFile := by
  refine (access_upkeep taken a true user).bind fun ⟨r, t⟩ kept => ?_
  cases r with
  | none => exact kept
  | some e => exact kept.trans ⟨.refl _, rfl, rfl, fun _ _ => rfl⟩

theorem storeWord_upkeep (addr w : Nat) : Ensures (s.storeWord addr w) (Upkeep s) NotFile := by
  refine Ensures.foldlM (Upkeep s) _ (fun t p _ kept => ?_) (.refl s)
  exact (store_upkeep (kept.taken taken) p.1 p.2 false).bind fun r kept' => kept.trans kept'

end Faults

inductive Added (s : Vm) (fd : Int) : Vm → Prop where
  | failed : Added s fd s
  | slot {t : Vm} {i : Fin MAXMAPPEDFILES} {f : Fin NFILE} {size : Nat} :
      openFile s.proc fd = some f → freeMmap s.proc.ommap = some i →
      Upkeep (s.addMmap i f size) t → Added s fd t

theorem mmap_added {s : Vm} (taken : s.Taken) {fd : Int}
    (opened : ∀ f, openFile s.proc fd = some f → (s.fs.file f).type ≠ .none) (addr : Nat) :
    Ensures (mmap s fd addr) (fun r => Added s fd r.2) NotFile := by
  unfold mmap
  split
  · exact .failed
  · rename_i f found
    split
    · exact .failed
    · rename_i i free
      split
      · exact ⟨by decide, by decide⟩
      · rename_i ip _
        have taken' : (s.addMmap i f (s.fs.inode ip).size).Taken := by
          intro j g mapped
          change (update s.proc.ommap i _ j).pfile = some g at mapped
          by_cases e : j = i
          · subst e
            rw [update_self] at mapped
            cases mapped
            exact opened f found
          · rw [update_of_ne e] at mapped
            exact taken j g mapped
        exact (storeWord_upkeep taken' _ _).bind fun t kept => .slot found free kept

section Unmapping
variable {f : Fin NFILE} {addr : Nat}

theorem writeback_upkeep {s : Vm} (taken : (s.fs.file f).type ≠ .none) (offset : Nat) :
    Ensures (writeback s f addr offset) (Upkeep s) NotFile := by
  unfold writeback
  split
  · exact .refl _
  · split
    · refine (fileseek_upkeep _ f _).bind fun fs sought => ?_
      refine (filewrite_upkeep (by rwa [sought.type]) _ _).bind fun r written => ?_
      exact ⟨sought.trans written, rfl, rfl, fun _ _ => rfl⟩
    · exact .refl _

theorem writebackLoop_upkeep (size n : Nat) {s : Vm} (taken : (s.fs.file f).type ≠ .none)
    (offset : Nat) : Ensures (writebackLoop f addr size n s offset) (Upkeep s) NotFile := by
  induction n generalizing s offset with
  | zero => exact ⟨by decide, by decide⟩
  | succ n ih =>
    unfold writebackLoop
    split
    · refine (writeback_upkeep taken offset).bind fun t kept => ?_
      exact (ih (by rwa [kept.files.type]) _).mono fun u => kept.trans
    · exact .refl _

theorem munmapAt_upkeep {s : Vm} (taken : (s.fs.file f).type ≠ .none) (i : Fin MAXMAPPEDFILES) :
    Ensures (munmapAt s i f) (fun t => Upkeep s t ∧ ¬Live t.proc i) NotFile := by
  refine (writebackLoop_upkeep _ _ taken _).bind fun t kept => ?_
  cases freed : unmappages t.uvm (s.proc.ommap i).va
      (((s.proc.ommap i).va + (s.proc.ommap i).sz) % 2 ^ 32) with
  | error e => exact ((unmappages_fails _ _ _).of_error freed).notFile
  | ok r =>
    have dropped : ∀ j, ((t.setUvm r.2).dropMmap i).proc.ommap j =
        update t.proc.ommap i { t.proc.ommap i with pfile := none, va := 0 } j :=
      fun _ => rfl
    constructor
    · refine kept.trans ⟨.refl _, rfl, rfl, fun j live => ?_⟩
      rw [Live, dropped] at live
      rw [dropped]
      by_cases e : j = i
      · subst e
        rw [update_self] at live
        cases live
      · rw [update_of_ne e]
    · rw [Live, dropped, update_self]
      simp

theorem munmap_upkeep {s : Vm} (taken : s.Taken) (addr : Nat) :
    Ensures (munmap s addr) (fun r => Upkeep s r.2 ∧
      ∀ i, mappingAt s.proc.ommap addr = some i → ¬Live r.2.proc i) NotFile := by
  unfold munmap
  split
  · rename_i none
    exact ⟨.refl _, fun i found => by rw [none] at found; cases found⟩
  · rename_i i found
    split
    · rename_i unmapped
      have live := (mappingAt_some found).2.1
      rw [Live, unmapped] at live
      cases live
    · rename_i f mapped
      refine (munmapAt_upkeep (taken i f mapped) i).bind fun t ⟨kept, gone⟩ =>
        ⟨kept, fun j hj => ?_⟩
      obtain rfl := Option.some.inj (found.symm.trans hj)
      exact gone

/-- The loop of exit from one index on. The mappings before it are gone, so each call
of munmap finds the mapping that the loop is at. -/
theorem unmapLive_upkeep (is : List (Fin MAXMAPPEDFILES)) {s : Vm} (taken : s.Taken)
    (sorted : is.Pairwise (· < ·)) (todo : ∀ i, Live s.proc i → i ∈ is)
    (placed : ∀ i, Live s.proc i → (s.proc.ommap i).va ≠ 0) :
    Ensures (is.foldlM unmapLive s) (fun t => Upkeep s t ∧ ∀ i, ¬Live t.proc i) NotFile := by
  induction is generalizing s with
  | nil => exact ⟨.refl _, fun i live => List.not_mem_nil (todo i live)⟩
  | cons i is ih =>
    obtain ⟨first, sorted'⟩ := List.pairwise_cons.mp sorted
    have step : Ensures (unmapLive s i) (fun t => Upkeep s t ∧ ¬Live t.proc i) NotFile := by
      unfold unmapLive
      split
      · rename_i live
        obtain ⟨j, found, le⟩ := mappingAt_first live (placed i live)
        have here : j = i := by
          rcases List.mem_cons.mp (todo j (mappingAt_some found).2.1) with e | later
          · exact e
          · exact absurd (first j later) (Fin.not_lt.mpr le)
        exact (munmap_upkeep taken _).bind fun r ⟨kept, gone⟩ => ⟨kept, gone i (here ▸ found)⟩
      · rename_i dead
        exact ⟨.refl _, dead⟩
    rw [List.foldlM_cons]
    refine step.bind fun t ⟨kept, gone⟩ => ?_
    have before : ∀ j, Live t.proc j → Live s.proc j := by
      intro j live
      rw [Live, ← kept.ommap j live]
      exact live
    refine (ih (kept.taken taken) sorted' (fun j live => ?_) (fun j live => ?_)).mono
      fun u ⟨kept', dead⟩ => ⟨kept.trans kept', dead⟩
    · apply (List.mem_cons.mp (todo j (before j live))).resolve_left
      rintro rfl
      exact gone live
    · rw [kept.ommap j live]
      exact placed j (before j live)

theorem exitUnmap_upkeep {s : Vm} (taken : s.Taken)
    (placed : ∀ i, Live s.proc i → (s.proc.ommap i).va ≠ 0) :
    Ensures (exitUnmap s) (fun t => Upkeep s t ∧ ∀ i, ¬Live t.proc i) NotFile :=
  unmapLive_upkeep _ taken (List.pairwise_lt_finRange _) (fun i _ => List.mem_finRange i) placed

end Unmapping

theorem growproc_upkeep (s : Vm) (n : Int) :
    Ensures (growproc s n) (fun r => Upkeep s r.2) NotFile := by
  have resized : ∀ r : Nat × Uvm, Upkeep s (if r.1 = 0 then ((-1 : Int), s.setUvm r.2) else
      (0, { s with
        proc := { s.proc with sz := r.1, pgdir := r.2.pgdir }, kmem := r.2.kmem })).2 := by
    intro r
    split <;> exact ⟨.refl _, rfl, rfl, fun _ _ => rfl⟩
  unfold growproc
  split
  · cases grown : allocuvm s.uvm s.proc.sz (brk s.proc n) with
    | error e => exact ((allocuvm_fails _ _ _).of_error grown).notFile
    | ok r => exact resized r
  · split
    · cases shrunk : deallocuvm s.uvm s.proc.sz (brk s.proc n) with
      | error e => exact ((deallocuvm_fails _ _ _).of_error shrunk).notFile
      | ok r => exact resized r
    · exact .refl _

theorem fork_forks (s : Vm) (slot : Proc) :
    Ensures (fork s slot) (fun r => (∃ k, r.2 = { s with kmem := k }) ∧
      ∀ np, r.1 = some np → ∃ d, np = forkProc s.proc slot d) NotFile := by
  unfold fork
  split
  · exact ⟨⟨_, rfl⟩, fun _ none => by cases none⟩
  · rename_i kstack k _
    cases copied : copyuvm s.proc.pgdir k s.proc.sz with
    | error e => exact ((copyuvm_fails _ _ _).of_error copied).notFile
    | ok r =>
      obtain ⟨child, k'⟩ := r
      cases child with
      | some d => exact ⟨⟨k', rfl⟩, fun np e => ⟨d, (Option.some.inj e).symm⟩⟩
      | none =>
        cases freed : k'.kfree kstack with
        | error e =>
          simp only [ok_bind, freed]
          exact ((kfree_fails _ _).of_error freed).notFile
        | ok k'' =>
          simp only [ok_bind, freed]
          exact ⟨⟨k'', rfl⟩, fun _ none => by cases none⟩

end MmapXv6
