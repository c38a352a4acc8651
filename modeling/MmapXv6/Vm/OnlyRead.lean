import MmapXv6.Vm.Written
import MmapXv6.Vm.Size
import MmapXv6.Vm.Offsets

/-! Pages of a mapping that the process only reads. The handler copies the file to the
page through its user address, which sets PTE_D as a store of the process would, and
copyuvm hands the flag on to a child. So munmap writes such a page back over whatever
other processes have written to the file since. -/
namespace MmapXv6

open Lib (bind_ok ok_bind Reaches)
open Function

inductive WatchAct where
  | call (a : SizeAct)
  | copyout (a : Nat) (b : UInt8)       -- a byte that a system call of the process stores
  | exitUnmap (i : Fin MAXMAPPEDFILES)  -- one pass of the first loop of exit

def WatchAct.run (s : Vm) : WatchAct → Except Panic Vm
  | .call a => sizeStep s a
  | .copyout a b => do .ok (← s.store a b false).2
  | .exitUnmap i => unmapLive s i

/-- A process with a record of its pages. A page is marked when a load brings it in from
a mapping, with whether the handler copied a byte to it, and loses the mark when it is
stored to or goes away. For each page the bytes of files that others changed since. -/
structure Watched where
  vm : Vm
  read : Nat → Option Bool := fun _ => none
  changed : Nat → Fin NINODE → Nat → Bool := fun _ _ _ => false

def Fs.copies (fs : Fs) (f : Fin NFILE) (newoffset : Nat) : Bool :=
  match fileseek fs f newoffset with
  | .error _ => false
  | .ok fs => match fileread fs f PGSIZE with
    | .error _ => false
    | .ok (r, _, _) => decide (0 < r)

def Vm.copies (s : Vm) (a : Nat) : Bool :=
  match mmapin s.proc.ommap a with
  | none => false
  | some i => match (s.proc.ommap i).pfile with
    | none => false
    | some f => s.fs.copies f ((PGROUNDDOWN a + 2 ^ 32 - (s.proc.ommap i).va) % 2 ^ 32)

instance (p : Proc) (a : Nat) : Decidable (InWindow p a) := inferInstanceAs (Decidable (_ ∧ _))

def Vm.BringsIn (s t : Vm) (a v : Nat) : Prop :=
  v = a / PGSIZE ∧ s.entry v = none ∧ ¬InWindow s.proc a ∧ (mmapin s.proc.ommap a).isSome ∧
    (t.entry v).isSome

instance (s t : Vm) (a v : Nat) : Decidable (s.BringsIn t a v) :=
  inferInstanceAs (Decidable (_ ∧ _ ∧ _ ∧ _ ∧ _))

namespace Watched

def kept (s : Watched) (t : Vm) (v : Nat) : Option Bool :=
  if t.entry v = s.vm.entry v then s.read v else none

def nextRead (s : Watched) (t : Vm) (v : Nat) : WatchAct → Option Bool
  | .call (.space (.load a)) =>
    if s.vm.BringsIn t a v then some (s.vm.copies a) else s.kept t v
  | .call (.space (.store a _)) | .copyout a _ => if v = a / PGSIZE then none else s.kept t v
  | .call (.space (.mmap _ addr)) =>
    -- the result of mmap is stored at addr
    if ∃ p ∈ wordBytes addr s.vm.proc.sz, v = p.1 / PGSIZE then none else s.kept t v
  | .call (.space (.fork _)) => if (t.entry v).isSome then s.read v else none
  | _ => s.kept t v

def nextChanged (s : Watched) (t : Vm) (v : Nat) (ip : Fin NINODE) (i : Nat) : WatchAct → Bool
  | .call (.space (.load a)) => !decide (s.vm.BringsIn t a v) && s.changed v ip i
  | .call (.space (.outside _ fs _)) =>
    s.changed v ip i || decide ((fs.inode ip).data i ≠ (s.vm.fs.inode ip).data i)
  | _ => s.changed v ip i

def step (s : Watched) (a : WatchAct) : Except Panic Watched := do
  let t ← a.run s.vm
  .ok ⟨t, fun v => s.nextRead t v a, fun v ip i => s.nextChanged t v ip i a⟩

end Watched

def WatchAct.Legal : WatchAct → Prop
  | .call (.space (.mmap _ addr)) => addr + 4 ≤ KERNBASE
  | .call a => a.Legal
  | .copyout a _ => a < 2 ^ 32
  | .exitUnmap _ => True

instance WatchAct.decidableLegal (a : WatchAct) : Decidable a.Legal := by
  unfold WatchAct.Legal SizeAct.Legal
  split
  all_goals first | infer_instance | (split <;> infer_instance)

def Watched.Marked (s : Watched) : Prop :=
  ∀ v c, s.read v = some c → v < UPAGES ∧ ∃ e, s.vm.entry v = some e ∧ e.dirty = c

section Load
variable {s t : Vm} {a : Nat}

theorem loadMapped_dirty {m : Mmap} {f : Fin NFILE} {base : Nat} (file : m.pfile = some f)
    (done : loadMapped s m base = .ok t) {e : Pte} (there : s.entry (base / PGSIZE) = some e)
    (clean : e.dirty = false) : ∃ e', t.entry (base / PGSIZE) = some e' ∧
      e'.dirty = s.fs.copies f ((base + 2 ^ 32 - m.va) % 2 ^ 32) := by
  unfold loadMapped at done
  rw [file] at done
  obtain ⟨fs, sought, done⟩ := bind_ok.mp done
  obtain ⟨⟨r, bytes, fs'⟩, read, done⟩ := bind_ok.mp done
  unfold Fs.copies
  rw [sought]
  dsimp only at done ⊢
  rw [read]
  dsimp only
  split at done
  · cases done
    exact ⟨e, there, by rw [clean, decide_eq_false (by omega)]⟩
  · have there' : Vm.entry { s with fs := fs' } (base / PGSIZE) = .some e := there
    rw [there'] at done
    cases done
    refine ⟨{ e with dirty := true }, ?_, (decide_eq_true (by omega)).symm⟩
    rw [Vm.fill_entry there', update_self]

theorem load_dirty {v : Nat} {b : Option UInt8} (word : a < 2 ^ 32) (done : s.load a = .ok (b, t))
    (brings : s.BringsIn t a v) : v < UPAGES ∧ ∃ e, t.entry v = some e ∧ e.dirty = s.copies a := by
  obtain ⟨rfl, absent, window, mapped, there⟩ := brings
  obtain ⟨⟨r, w⟩, accessed, rest⟩ := bind_ok.mp done
  have faults : s.admits a false true = none := by rw [Vm.admits, absent]; rfl
  unfold Vm.access at accessed
  rw [faults] at accessed
  obtain ⟨x, trapped, accessed⟩ := bind_ok.mp accessed
  have same : t = x := by
    split at accessed
    · cases accessed
      cases rest
      rfl
    · split at accessed
      · cases accessed
        cases rest
        rfl
      · cases accessed
  subst same
  have page : PGROUNDDOWN a / PGSIZE = a / PGSIZE := Nat.mul_div_cancel _ (by decide)
  obtain ⟨i, found⟩ := Option.isSome_iff_exists.mp mapped
  unfold trap at trapped
  split at trapped
  · exact absurd ‹_› window
  rw [found] at trapped
  obtain ⟨⟨r', u⟩, grown, trapped⟩ := bind_ok.mp trapped
  dsimp only at trapped
  split at trapped
  · cases trapped
  rename_i served
  obtain ⟨-, paged, entry, -⟩ := allocuvm_fault word grown served
  obtain ⟨f, file⟩ := Option.isSome_iff_exists.mp (mmapin_some found).1
  have copies : s.copies a =
      (s.setUvm u).fs.copies f ((PGROUNDDOWN a + 2 ^ 32 - (s.proc.ommap i).va) % 2 ^ 32) := by
    unfold Vm.copies
    rw [found]
    dsimp only
    rw [file]
    rfl
  rcases entry with same | ⟨pa, new⟩
  · -- no page was put there, so the handler's copy would have failed
    have none : (s.setUvm u).entry (a / PGSIZE) = none := by
      change u.pgdir.entry _ = none
      rw [same]
      exact absent
    obtain ⟨e, there⟩ := Option.isSome_iff_exists.mp there
    cases page ▸ loadMapped_loaded trapped with
    | nothing _ =>
      change (s.setUvm u).entry (a / PGSIZE) = some e at there
      rw [none] at there
      cases there
    | page _ there' =>
      rw [none] at there'
      cases there'
  · have fresh : (s.setUvm u).entry (PGROUNDDOWN a / PGSIZE) = some (userPte pa) := by
      change u.pgdir.entry _ = _
      rw [new, page, update_self]
    refine ⟨?_, ?_⟩
    · rcases allocuvm_cases grown with ⟨-, zero, -⟩ | ⟨-, -, same⟩ | ⟨le, low, -⟩
      · exact absurd zero served
      · change u.pgdir.entry _ = _ at fresh
        rw [same, page] at fresh
        cases absent.symm.trans fresh
      · unfold PGROUNDDOWN at le low
        simp only [UPAGES, PGSIZE, KERNBASE] at le low ⊢
        omega
    · rw [copies, ← page]
      exact loadMapped_dirty file trapped fresh rfl

end Load

section Fork
variable {pgdir : PgDir} {u u' : Uvm}

def FlagsOf (pgdir : PgDir) (d : PgDir) : Prop :=
  ∀ v e, v < UPAGES → d.entry v = some e → ∃ e', pgdir.entry v = some e' ∧ e.dirty = e'.dirty

theorem copyuvmLoop_flags {n i sz : Nat} {ok : Bool} (aligned : i % PGSIZE = 0) (word : i < 2 ^ 32)
    (flags : FlagsOf pgdir u.pgdir) (done : copyuvmLoop pgdir n u i sz = .ok (ok, u')) :
    FlagsOf pgdir u'.pgdir := by
  induction n generalizing u i with
  | zero => cases done
  | succ n ih =>
    have next : (i + PGSIZE) % 2 ^ 32 % PGSIZE = 0 := by
      simp only [PGSIZE] at aligned ⊢
      omega
    unfold copyuvmLoop at done
    split at done
    · split at done
      · cases done
      · rename_i table
        split at done
        · exact ih next (Nat.mod_lt _ (by decide)) flags done
        · rename_i e there
          split at done
          · cases done
            exact flags
          · obtain ⟨⟨r, w⟩, mapped, rest⟩ := bind_ok.mp done
            have first : FlagsOf pgdir w.pgdir := by
              have low : i + PGSIZE ≤ 2 ^ 32 := by
                simp only [PGSIZE] at aligned ⊢
                omega
              cases mappages_page aligned low mapped with
              | none same => exact same ▸ flags
              | page _ entry =>
                intro v f user here
                rw [entry] at here
                by_cases new : v = i / PGSIZE
                · subst new
                  rw [update_self] at here
                  cases here
                  refine ⟨e, ?_, rfl⟩
                  rw [pgdir.entry_of_table (Option.isSome_iff_ne_none.mpr
                    (by simpa [PDX] using table)), there]
                · rw [update_of_ne new] at here
                  exact flags v f user here
            dsimp only at rest
            split at rest
            · cases rest
              exact first
            · exact ih next (Nat.mod_lt _ (by decide)) first rest
    · cases done
      exact flags

theorem copyuvm_flags {d : PgDir} {k k' : Kmem} {sz : Nat}
    (done : copyuvm pgdir k sz = .ok (some d, k')) : FlagsOf pgdir d := by
  obtain ⟨⟨d₀, k₀⟩, setup, rest⟩ := bind_ok.mp done
  cases d₀ with
  | none => cases rest
  | some d₀ =>
    obtain ⟨⟨ok, w⟩, loop, eq⟩ := bind_ok.mp rest
    have flags : FlagsOf pgdir d₀ := by
      intro v e user there
      rw [setupkvm_user setup user] at there
      cases there
    have copied := copyuvmLoop_flags (by decide) (by decide) flags loop
    cases ok with
    | false =>
      obtain ⟨_, -, eq⟩ := bind_ok.mp eq
      cases eq
    | true =>
      cases eq
      exact copied

end Fork

section Step
variable {s : Watched} {t : Vm}

theorem Watched.Marked.kept (h : s.Marked) {v : Nat} {c : Bool} (mark : s.kept t v = some c) :
    v < UPAGES ∧ ∃ e, t.entry v = some e ∧ e.dirty = c := by
  unfold Watched.kept at mark
  split at mark
  · rename_i same
    rw [same]
    exact h v c mark
  · cases mark

theorem Watched.Marked.fork (h : s.Marked) {slot : Proc}
    (done : spaceStep s.vm (.fork slot) = .ok t)
    {v : Nat} {c : Bool} (there : (t.entry v).isSome) (mark : s.read v = some c) :
    v < UPAGES ∧ ∃ e, t.entry v = some e ∧ e.dirty = c := by
  obtain ⟨user, e, old, dirty⟩ := h v c mark
  refine ⟨user, ?_⟩
  obtain ⟨⟨child, x⟩, forked, eq⟩ := bind_ok.mp done
  unfold MmapXv6.fork at forked
  split at forked
  · cases forked
    cases eq
    exact ⟨e, old, dirty⟩
  · obtain ⟨⟨d, k⟩, copied, rest⟩ := bind_ok.mp forked
    cases d with
    | none =>
      obtain ⟨k', -, eq'⟩ := bind_ok.mp rest
      cases eq'
      cases eq
      exact ⟨e, old, dirty⟩
    | some d =>
      cases rest
      cases eq
      obtain ⟨f, new⟩ := Option.isSome_iff_exists.mp there
      obtain ⟨e', parent, same⟩ := copyuvm_flags copied v f user new
      cases old.symm.trans parent
      exact ⟨f, new, same.trans dirty⟩

theorem Watched.Marked.step (h : s.Marked) {a : WatchAct} {t : Watched} (legal : a.Legal)
    (done : s.step a = .ok t) : t.Marked := by
  obtain ⟨x, ran, eq⟩ := bind_ok.mp done
  cases eq
  intro v c mark
  cases a with
  | copyout a b =>
    dsimp only [Watched.nextRead] at mark
    split at mark
    · cases mark
    · exact h.kept mark
  | exitUnmap i => exact h.kept mark
  | call a =>
    cases a with
    | exec path argv => exact h.kept mark
    | space a =>
      cases a with
      | load a =>
        dsimp only [Watched.nextRead] at mark
        split at mark
        · cases mark
          obtain ⟨⟨b, y⟩, loaded, eq⟩ := bind_ok.mp ran
          cases eq
          exact load_dirty legal loaded ‹_›
        · exact h.kept mark
      | store a b =>
        dsimp only [Watched.nextRead] at mark
        split at mark
        · cases mark
        · exact h.kept mark
      | mmap fd addr =>
        dsimp only [Watched.nextRead] at mark
        split at mark
        · cases mark
        · exact h.kept mark
      | fork slot =>
        dsimp only [Watched.nextRead] at mark
        split at mark
        · exact h.fork ran ‹_› mark
        · cases mark
      | munmap addr => exact h.kept mark
      | sbrk n => exact h.kept mark
      | outside kmem fs ofile => exact h.kept mark

end Step

def WatchAct.removes (s : Vm) : WatchAct → Option (Fin MAXMAPPEDFILES)
  | .call (.space (.munmap addr)) => mappingAt s.proc.ommap addr
  | .exitUnmap i => if Live s.proc i then mappingAt s.proc.ommap (s.proc.ommap i).va else none
  | _ => none

theorem removes_munmap {s t : Vm} {a : WatchAct} {k : Fin MAXMAPPEDFILES}
    (removes : a.removes s = some k) (done : a.run s = .ok t) :
    ∃ addr r, mappingAt s.proc.ommap addr = some k ∧ munmap s addr = .ok (r, t) := by
  unfold WatchAct.removes at removes
  split at removes
  · rename_i addr
    obtain ⟨⟨r, x⟩, unmapped, eq⟩ := bind_ok.mp done
    cases eq
    exact ⟨addr, r, removes, unmapped⟩
  · rename_i i
    split at removes
    · rename_i live
      change unmapLive s i = .ok t at done
      unfold unmapLive at done
      rw [if_pos live] at done
      obtain ⟨⟨r, x⟩, unmapped, eq⟩ := bind_ok.mp done
      cases eq
      exact ⟨_, r, removes, unmapped⟩
    · cases removes
  · cases removes

/-- A byte that others changed while the page of the mapping it belongs to was only read. -/
def Watched.Stale (s : Watched) (k : Fin MAXMAPPEDFILES) (ip : Fin NINODE) (i : Nat) : Prop :=
  let v := ((s.vm.proc.ommap k).va + i) / PGSIZE
  (s.vm.proc.ommap k).Meets v ∧ (s.read v).isSome ∧ s.changed v ip i = true

/-- What munmap writes over byte i of the file, if anything, is what the file has. -/
def Watched.Spared (s : Watched) (k : Fin MAXMAPPEDFILES) (ip : Fin NINODE) (i : Nat) : Prop :=
  i / PGSIZE * PGSIZE < (s.vm.proc.ommap k).sz → i / PGSIZE * PGSIZE + PGSIZE ≤ MAXFILE * BSIZE →
    ∀ b ∈ (s.vm.proc.ommap k).backByte s.vm i, b = (s.vm.fs.inode ip).data i

/-- In every run the pages that were only read are dirty, as soon as the handler copied a
byte to them, and a mapping is removed without the loss of a change to such a page exactly
when what is written over the changed bytes is what they are. -/
theorem only_read_pages_lose_nothing {s : Watched}
    (run : Reaches Watched.step (fun _ a => a.Legal) (fun s => ∀ v, s.read v = none) s) :
    (∀ v c, s.read v = some c → ∃ e, s.vm.entry v = some e ∧ e.dirty = c) ∧
    ∀ a t k f ip, a.removes s.vm = some k → s.step a = .ok t →
      (s.vm.proc.ommap k).pfile = some f → Backed s.vm.fs f ip →
      (s.vm.proc.ommap k).sz ≤ (s.vm.fs.inode ip).size →
      (s.vm.fs.inode ip).size ≤ MAXFILE * BSIZE →
      (s.vm.proc.ommap k).va + (s.vm.proc.ommap k).sz + PGSIZE ≤ 2 ^ 32 →
      ((∀ i, s.Stale k ip i → (t.vm.fs.inode ip).data i = (s.vm.fs.inode ip).data i) ↔
        ∀ i, s.Stale k ip i → s.Spared k ip i) := by
  constructor
  · have marked : s.Marked := by
      refine Reaches.invariant Watched.Marked ?_ (fun s a t h legal => h.step legal) run
      intro s none v c mark
      rw [none v] at mark
      cases mark
    exact fun v c mark => (marked v c mark).2
  · intro a t k f ip removes stepped file backed inside most word
    obtain ⟨x, ran, eq⟩ := bind_ok.mp stepped
    cases eq
    obtain ⟨addr, r, found, unmapped⟩ := removes_munmap removes ran
    rw [munmap_found found file] at unmapped
    obtain ⟨y, at_, eq⟩ := bind_ok.mp unmapped
    cases eq
    obtain ⟨w, _, u, loop, -, -, -, rfl⟩ := munmapAt_cases at_
    change (∀ i, _ → (w.fs.inode ip).data i = _) ↔ _
    unfold Watched.Spared
    generalize s.vm.proc.ommap k = m at inside word loop
    have size : (m.va + m.sz) % 2 ^ 32 = m.va + m.sz :=
      Nat.mod_eq_of_lt (by simp only [PGSIZE] at word; omega)
    rw [size] at loop
    have back :=
      writebackLoop_pagesBack backed (Nat.le_refl _) (by simp) word (inside.trans most) inside loop
    refine forall_congr' fun i => imp_congr_right fun _ => ?_
    rw [back.data i]
    constructor
    · intro same start fits b byte
      rw [if_pos ⟨by omega, start, fits⟩, byte, Option.getD_some] at same
      exact same
    · intro spared
      split
      · rename_i written
        cases byte : m.backByte s.vm i with
        | none => rfl
        | some b => exact spared written.2.1 written.2.2 b byte
      · rfl

def otherWrites (b : UInt8) : WatchAct :=
  .call (.space (.outside { freelist := [0x901, 0x902] }
    { file := fun _ => ⟨.inode, true, true, some 0, 100⟩
      inode := fun _ => { size := 100, data := fun j => if j = 32 then b else 0 } }
        image.proc.ofile))

/-- The other process takes its change back before the mapping is removed. -/
theorem only_read_pages_lose_nothing_undone : ∃ s t : Watched, s.Stale 0 0 32 ∧
    s.step (.call (.space (.munmap 0xA000))) = .ok t ∧
      (t.vm.fs.inode 0).data 32 = (s.vm.fs.inode 0).data 32 := by
  have start : Reaches Watched.step (fun _ a => a.Legal) (fun s => ∀ v, s.read v = none)
      { vm := mappedImage } := .start fun _ => rfl
  obtain ⟨s, run, seen⟩ := start.exists_of_follow
    [.call (.space (.load 0xA010)), otherWrites 66, otherWrites 0]
    (fun s => decide (s.vm.proc.ommap 0 = ⟨some 0, 0xA000, 100⟩ ∧ (s.read 10).isSome ∧
      s.changed 10 0 32 = true ∧ (s.vm.fs.inode 0).size = 100 ∧
      s.vm.fs.file 0 = ⟨.inode, true, true, some 0, 100⟩ ∧ (s.vm.fs.inode 0).type = .file ∧
      mappingAt s.vm.proc.ommap 0xA000 = some 0 ∧
      (List.range 4096).all (fun i => !s.changed 10 0 i || i == 32) ∧
      (s.vm.proc.ommap 0).backByte s.vm 32 = some ((s.vm.fs.inode 0).data 32) ∧
      (s.step (.call (.space (.munmap 0xA000)))).toOption.isSome)) (by decide +kernel)
  simp only [decide_eq_true_eq] at seen
  obtain ⟨mapping, read, changed, size, file, type, found, only, byte, returns⟩ := seen
  cases done : s.step (.call (.space (.munmap 0xA000))) with
  | error e => simp [done, Except.toOption] at returns
  | ok t =>
    have stale : s.Stale 0 0 32 := by
      unfold Watched.Stale
      rw [mapping]
      exact ⟨⟨0xA000, by decide, by decide, rfl⟩, read, changed⟩
    have kept := (only_read_pages_lose_nothing run).2
      (.call (.space (.munmap 0xA000))) t 0 0 0 found
      done (by rw [mapping]) ⟨by rw [file], by rw [file], by rw [file], type⟩
      (by rw [mapping, size]) (by rw [size]; decide) (by rw [mapping]; decide)
    refine ⟨s, t, stale, done, kept.mpr (fun i other => ?_) 32 stale⟩
    unfold Watched.Stale at other
    unfold Watched.Spared
    rw [mapping] at other byte ⊢
    obtain ⟨⟨a, low, high, page⟩, -, changed⟩ := other
    simp only [PGSIZE] at low high page changed
    have here : (0xA000 + i) / 4096 = 10 := by omega
    rw [here] at changed
    have one := List.all_eq_true.mp only i (List.mem_range.mpr (by omega))
    rw [changed] at one
    obtain rfl : i = 32 := by simpa using one
    intro _ _ b written
    rw [byte] at written
    exact (Option.some.inj written).symm

/-- A process reads a page of a file of 100 bytes, another one sets byte 32 to 66, and
munmap puts the old byte back. -/
theorem only_read_page_written_back : ∃ s t : Watched,
    Reaches Watched.step (fun _ a => a.Legal) (fun s => ∀ v, s.read v = none) s ∧
      s.Stale 0 0 32 ∧ (s.vm.fs.inode 0).data 32 = 66 ∧
      s.step (.call (.space (.munmap 0xA000))) = .ok t ∧ (t.vm.fs.inode 0).data 32 = 0 := by
  have start : Reaches Watched.step (fun _ a => a.Legal) (fun s => ∀ v, s.read v = none)
      { vm := mappedImage } := .start fun _ => rfl
  obtain ⟨s, run, seen⟩ := start.exists_of_follow [.call (.space (.load 0xA010)), otherWrites 66]
    (fun s => decide ((s.vm.proc.ommap 0).va = 0xA000 ∧ (s.vm.proc.ommap 0).sz = 100 ∧
      (s.read 10).isSome ∧ s.changed 10 0 32 = true ∧ (s.vm.fs.inode 0).data 32 = 66 ∧
      (s.step (.call (.space (.munmap 0xA000)))).toOption.any (fun t =>
        (t.vm.fs.inode 0).data 32 == 0) = true)) (by decide +kernel)
  simp only [decide_eq_true_eq] at seen
  obtain ⟨va, sz, read, changed, byte, lost⟩ := seen
  cases done : s.step (.call (.space (.munmap 0xA000))) with
  | error e => simp [done, Except.toOption] at lost
  | ok t =>
    simp only [done, Except.toOption, Option.any_some, beq_iff_eq] at lost
    refine ⟨s, t, run, ?_, byte, done, lost⟩
    unfold Watched.Stale
    rw [va]
    exact ⟨⟨0xA000, by omega, by omega, rfl⟩, read, changed⟩

end MmapXv6
