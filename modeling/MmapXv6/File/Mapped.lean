import MmapXv6.Lib.Fibre
import MmapXv6.File.Table
import MmapXv6.File.Upkeep
import MmapXv6.Vm.Layout

/-! The reference count of a file table entry is the number of descriptors that hold
it, and a mapping holds none. So a mapped file stays open only as long as some
descriptor does, and the last close must come after the unmapping. -/
namespace MmapXv6

open Lib Function

variable {f : Fin NFILE} {fd : Fin NOFILE} {s : Files}

def Files.rows (s : Files) : Slot → Fin NOFILE → Option (Fin NFILE) := fun p => (s.proc p).ofile

def Files.Unmapped (s : Files) (f : Fin NFILE) : Prop :=
  ∀ p i, ((s.proc p).ommap i).pfile ≠ some f

/-- An entry in use is an open inode, a mapped one is in use and the inode is the one
that was mapped, and a slot without a process has no descriptors and no mappings. -/
structure FilesSound (s : Files) : Prop where
  opened : ∀ f, 0 < s.ref f → (s.fs.file f).type = .inode ∧ (s.fs.file f).ip.isSome
  mapped : ∀ p i f, ((s.proc p).ommap i).pfile = some f →
    0 < s.ref f ∧ (s.fs.file f).ip = s.origin p i
  idle : ∀ p, ¬(s.proc p).acts → (∀ fd, (s.proc p).ofile fd = none) ∧ ∀ i, ¬Live (s.proc p) i

structure FilesInv (s : Files) : Prop extends FilesSound s where
  count : ∀ f, s.ref f = holders s.rows f

theorem FilesSound.taken (sound : FilesSound s) (p : Slot) : (s.view p).Taken := by
  intro i f mapped
  rw [show (s.view p).fs = s.fs from rfl, (sound.opened f (sound.mapped p i f mapped).1).1]
  decide

theorem FilesSound.free (sound : FilesSound s) (free : s.ref f = 0) :
    s.Unmapped f := by
  intro p i mapped
  have := (sound.mapped p i f mapped).1
  omega

theorem FilesInv.held (inv : FilesInv s) {p : Slot}
    (held : (s.proc p).ofile fd = some f) : 0 < s.ref f := by
  rw [inv.count]
  exact holders_pos held

theorem FilesInv.opens (inv : FilesInv s) {p : Slot} {fd : Int}
    (found : openFile (s.proc p) fd = some f) : 0 < s.ref f := by
  unfold openFile at found
  split at found
  · exact inv.held found
  · cases found

section Table
variable {s : Files} {p : Slot}

theorem Files.rows_setOfile (fd : Fin NOFILE) (f : Option (Fin NFILE)) :
    (s.setOfile p fd f).rows = update s.rows p (update (s.rows p) fd f) := by
  funext q
  by_cases e : q = p
  · subst e
    simp [Files.rows, Files.setOfile, Files.setProc]
  · simp [Files.rows, Files.setOfile, Files.setProc, e]

theorem Files.setOfile_other (fd : Fin NOFILE) (f : Option (Fin NFILE)) (q : Slot) :
    ((s.setOfile p fd f).proc q).ommap = (s.proc q).ommap ∧
      ((s.setOfile p fd f).proc q).state = (s.proc q).state := by
  by_cases e : q = p
  · subst e
    simp [Files.setOfile, Files.setProc]
  · simp [Files.setOfile, Files.setProc, e]

theorem FilesSound.setOfile (sound : FilesSound s) (acts : (s.proc p).acts) (fd : Fin NOFILE)
    (f : Option (Fin NFILE)) : FilesSound (s.setOfile p fd f) where
  opened := sound.opened
  mapped := by
    intro q i g mapped
    rw [(Files.setOfile_other fd f q).1] at mapped
    exact sound.mapped q i g mapped
  idle := by
    intro q idle
    by_cases e : q = p
    · subst e
      rw [Proc.acts, (Files.setOfile_other fd f q).2] at idle
      exact absurd acts idle
    · have same : (s.setOfile p fd f).proc q = s.proc q := by
        simp [Files.setOfile, Files.setProc, e]
      rw [same] at idle ⊢
      exact sound.idle q idle

theorem FilesSound.fileclose (sound : FilesSound s) (pos : 0 < s.ref f)
    (safe : s.ref f = 1 → s.Unmapped f) :
    Ensures (s.fileclose f) (fun t => FilesSound t ∧ t.proc = s.proc ∧
      t.ref = update s.ref f (s.ref f - 1)) NotFile := by
  unfold Files.fileclose
  rw [if_neg (by omega)]
  split
  · rename_i more
    refine ⟨⟨fun g hg => ?_, fun q i g mapped => ?_, sound.idle⟩, rfl, rfl⟩
    · apply sound.opened g
      by_cases e : g = f
      · exact e ▸ pos
      · simpa [Files.setRef, e] using hg
    · obtain ⟨used, origin⟩ := sound.mapped q i g mapped
      refine ⟨?_, origin⟩
      by_cases e : g = f
      · simpa [Files.setRef, e] using more
      · simpa [Files.setRef, e] using used
  · have one : s.ref f = 1 := by omega
    refine ⟨⟨fun g hg => ?_, fun q i g mapped => ?_, sound.idle⟩, rfl, ?_⟩
    · by_cases e : g = f
      · simp [Files.setRef, Files.setFile, e] at hg
      · have := sound.opened g (by simpa [Files.setRef, Files.setFile, e] using hg)
        simpa [Files.setRef, Files.setFile, e] using this
    · have e : g ≠ f := by
        rintro rfl
        exact safe one q i mapped
      have := sound.mapped q i g mapped
      simpa [Files.setRef, Files.setFile, e] using this
    · rw [one]
      rfl

structure Closed (s t : Files) (p : Slot) (fd : Fin NOFILE) : Prop where
  rows : t.rows = update s.rows p (update (s.rows p) fd none)
  ommap : ∀ q, (t.proc q).ommap = (s.proc q).ommap
  state : ∀ q, (t.proc q).state = (s.proc q).state
  ref : ∀ f, t.ref f + (if s.rows p fd = some f then 1 else 0) = s.ref f

theorem FilesInv.closeFd (inv : FilesInv s) (acts : (s.proc p).acts)
    (safe : ∀ f, (s.proc p).ofile fd = some f → s.ref f = 1 → s.Unmapped f) :
    Ensures (Files.closeFd p s fd) (fun t => FilesInv t ∧ Closed s t p fd) NotFile := by
  unfold Files.closeFd
  split
  · rename_i none
    refine ⟨inv, ?_, fun _ => rfl, fun _ => rfl, fun f => ?_⟩
    · have same : update (s.rows p) fd Option.none = s.rows p := by
        rw [← none]
        exact update_eq_self fd (s.rows p)
      rw [same, update_eq_self]
    · rw [if_neg (by simp [show s.rows p fd = _ from none])]
      rfl
  · rename_i f held
    have unmapped : s.ref f = 1 → (s.setOfile p fd none).Unmapped f := by
      intro one q i mapped
      rw [(Files.setOfile_other fd none q).1] at mapped
      exact safe f held one q i mapped
    have sound := inv.toFilesSound.setOfile acts fd none
    refine (sound.fileclose (inv.held held) unmapped).mono fun t ⟨sound, proc, ref⟩ => ?_
    have rows : t.rows = update s.rows p (update (s.rows p) fd none) := by
      rw [← Files.rows_setOfile]
      unfold Files.rows
      rw [proc]
    have fewer : ∀ g, t.ref g + (if g = f then 1 else 0) = s.ref g := by
      intro g
      have pos : 0 < s.ref f := inv.held held
      rw [ref]
      by_cases e : g = f
      · subst e
        rw [update_self, if_pos rfl]
        change s.ref g - 1 + 1 = s.ref g
        omega
      · rw [update_of_ne e, if_neg e]
        rfl
    refine ⟨⟨sound, fun g => ?_⟩, rows, fun q => ?_, fun q => ?_, fun g => ?_⟩
    · have cleared := holders_clear (show s.rows p fd = some f from held) g
      have count := inv.count g
      have less := fewer g
      rw [rows]
      omega
    · rw [proc]
      exact (Files.setOfile_other fd none q).1
    · rw [proc]
      exact (Files.setOfile_other fd none q).2
    · rw [← fewer g]
      congr 1
      simp only [show s.rows p fd = some f from held, Option.some.injEq, eq_comm]

theorem FilesInv.setState (inv : FilesInv s) {state : ProcState}
    (idle : (∀ fd, (s.proc p).ofile fd = none) ∧ ∀ i, ¬Live (s.proc p) i) :
    FilesInv (s.setState p state) := by
  have ofile : ∀ q, ((s.setState p state).proc q).ofile = (s.proc q).ofile := by
    intro q
    by_cases e : q = p
    · subst e
      simp [Files.setState, Files.setProc]
    · simp [Files.setState, Files.setProc, e]
  have ommap : ∀ q, ((s.setState p state).proc q).ommap = (s.proc q).ommap := by
    intro q
    by_cases e : q = p
    · subst e
      simp [Files.setState, Files.setProc]
    · simp [Files.setState, Files.setProc, e]
  refine ⟨⟨inv.opened, fun q i f mapped => ?_, fun q still => ?_⟩, fun f => ?_⟩
  · rw [ommap] at mapped
    exact inv.mapped q i f mapped
  · rw [ofile]
    simp only [Live]
    rw [ommap]
    by_cases e : q = p
    · exact e ▸ idle
    · apply inv.idle q
      simpa [Files.setState, Files.setProc, e] using still
  · rw [show (s.setState p state).rows = s.rows from funext ofile]
    exact inv.count f

/-- The second loop of exit. The entries that only this process holds stay the same
ones until they are closed, so none of them may be mapped. -/
theorem FilesInv.closeLoop (fds : List (Fin NOFILE)) (inv : FilesInv s) (acts : (s.proc p).acts)
    (unmapped : ∀ i, ¬Live (s.proc p) i)
    (safe : ∀ f, s.ref f = (fibre (s.rows p) f).card → s.Unmapped f)
    (todo : ∀ fd, fd ∉ fds → (s.proc p).ofile fd = none) :
    Ensures (fds.foldlM (Files.closeFd p) s) (fun t => FilesInv t ∧
      (∀ fd, (t.proc p).ofile fd = none) ∧ ∀ i, ¬Live (t.proc p) i) NotFile := by
  induction fds generalizing s with
  | nil => exact ⟨inv, fun fd => todo fd List.not_mem_nil, unmapped⟩
  | cons fd fds ih =>
    rw [List.foldlM_cons]
    have last : ∀ f, (s.proc p).ofile fd = some f → s.ref f = 1 → s.Unmapped f := by
      intro f held one
      apply safe f
      have pos : 0 < (fibre (s.rows p) f).card := card_fibre_pos.mpr ⟨fd, held⟩
      have le := holders_update s.rows p (fun _ => none) f
      rw [card_fibre_none (fun _ => rfl), ← inv.count] at le
      omega
    refine (inv.closeFd acts last).bind fun t step => ?_
    obtain ⟨inv', closed⟩ := step
    have row : t.rows p = update (s.rows p) fd none := by
      rw [closed.rows, update_self]
    apply ih inv'
    · rw [Proc.acts, closed.state]
      exact acts
    · intro i
      rw [Live, closed.ommap]
      exact unmapped i
    · intro f only q i mapped
      rw [closed.ommap] at mapped
      refine safe f ?_ q i mapped
      rw [← closed.ref f, only, row]
      cases held : s.rows p fd with
      | none => rw [← held, update_eq_self, if_neg (by simp [held])]; rfl
      | some g =>
        rw [← card_fibre_clear held f]
        simp only [Option.some.injEq, eq_comm]
    · intro other notIn
      change t.rows p other = none
      rw [row]
      by_cases e : other = fd
      · rw [e, update_self]
      · rw [update_of_ne e]
        exact todo other (by simp [e, notIn])

theorem FilesInv.install {v : Vm} (inv : FilesInv s) (acts : (s.proc p).acts)
    (files : SameOpen s.fs v.fs) (ofile : v.proc.ofile = (s.proc p).ofile)
    (state : v.proc.state = (s.proc p).state) (origin : Fin MAXMAPPEDFILES → Option (Fin NINODE))
    (mapped : ∀ i f, (v.proc.ommap i).pfile = some f → 0 < s.ref f ∧ (s.fs.file f).ip = origin i) :
    FilesInv { s.install p v with origin := update s.origin p origin } := by
  have rows : (s.install p v).rows = s.rows := by
    funext q
    by_cases e : q = p
    · subst e
      simpa [Files.rows, Files.install] using ofile
    · simp [Files.rows, Files.install, e]
  refine ⟨⟨fun f used => ?_, fun q i f => ?_, fun q => ?_⟩, fun f => ?_⟩
  · change (v.fs.file f).type = .inode ∧ (v.fs.file f).ip.isSome
    rw [files.type, files.ip]
    exact inv.opened f used
  · change ((update s.proc p v.proc q).ommap i).pfile = some f →
      0 < s.ref f ∧ (v.fs.file f).ip = update s.origin p origin q i
    rw [files.ip]
    by_cases e : q = p
    · subst e
      rw [update_self, update_self]
      exact mapped i f
    · rw [update_of_ne e, update_of_ne e]
      exact inv.mapped q i f
  · change ¬(update s.proc p v.proc q).acts →
      (∀ fd, (update s.proc p v.proc q).ofile fd = none) ∧
        ∀ i, ¬Live (update s.proc p v.proc q) i
    by_cases e : q = p
    · subst e
      rw [update_self, Proc.acts, state]
      exact fun still => absurd acts still
    · rw [update_of_ne e]
      exact inv.idle q
  · change s.ref f = holders (s.install p v).rows f
    rw [rows]
    exact inv.count f

theorem FilesInv.upkeep {v : Vm} (inv : FilesInv s) (acts : (s.proc p).acts)
    (kept : Upkeep (s.view p) v) : FilesInv (s.install p v) := by
  have := inv.install acts kept.files kept.ofile kept.state (s.origin p) fun i f mapped => by
    have same := kept.ommap i (by rw [Live, mapped]; rfl)
    rw [same] at mapped
    exact inv.mapped p i f mapped
  rwa [update_eq_self] at this

theorem FilesInv.sysMmap (inv : FilesInv s) (acts : (s.proc p).acts) (fd : Int) (addr : Nat) :
    Ensures (s.sysMmap p fd addr) FilesInv NotFile := by
  have opened : ∀ f, openFile (s.proc p) fd = some f → (s.fs.file f).type ≠ .none := by
    intro f found
    rw [(inv.opened f (inv.opens found)).1]
    decide
  refine (mmap_added (inv.taken p) opened addr).bind fun ⟨r, v⟩ added => ?_
  -- the slot that the ghost field is written for has no live mapping
  have unchanged : ∀ i f, ((s.proc p).ommap i).pfile = some f → s.mapped p fd i = s.origin p i := by
    intro i f live
    unfold Files.mapped
    cases free : freeMmap (s.proc p).ommap with
    | none => rfl
    | some j =>
      dsimp only
      rw [update_of_ne]
      rintro rfl
      have := List.find?_some free
      rw [live] at this
      cases this
  cases added with
  | failed =>
    refine inv.install acts (.refl _) rfl rfl _ fun i f live => ?_
    rw [unchanged i f live]
    exact inv.mapped p i f live
  | @slot _ i f size found free kept =>
    refine inv.install acts kept.files kept.ofile kept.state _ fun j g live => ?_
    have same := kept.ommap j (by rw [Live, live]; rfl)
    rw [same] at live
    change (update (s.proc p).ommap i _ j).pfile = some g at live
    by_cases e : j = i
    · subst e
      rw [update_self] at live
      cases live
      refine ⟨inv.opens found, ?_⟩
      have free' : freeMmap (s.proc p).ommap = some j := free
      have found' : openFile (s.view p).proc fd = some f := found
      unfold Files.mapped
      rw [free']
      dsimp only
      rw [update_self, mapInode, found']
      rfl
    · rw [update_of_ne e] at live
      rw [unchanged j g live]
      exact inv.mapped p j g live

theorem FilesSound.setRef (sound : FilesSound s) {n : Nat} (used : 0 < s.ref f)
    (pos : 0 < n) : FilesSound (s.setRef f n) := by
  have ref : ∀ g, 0 < (s.setRef f n).ref g ↔ 0 < s.ref g := by
    intro g
    by_cases e : g = f
    · subst e
      simp [Files.setRef, used, pos]
    · simp [Files.setRef, e]
  refine ⟨fun g hg => sound.opened g ((ref g).mp hg), fun q i g mapped => ?_, sound.idle⟩
  obtain ⟨hg, origin⟩ := sound.mapped q i g mapped
  exact ⟨(ref g).mpr hg, origin⟩

theorem fdalloc_free {proc : Proc} (found : Files.fdalloc proc = some fd) :
    proc.ofile fd = none := by
  simpa using List.find?_some found

theorem FilesInv.sysDup (inv : FilesInv s) (acts : (s.proc p).acts) (fd : Int) :
    Ensures (s.sysDup p fd) FilesInv NotFile := by
  unfold Files.sysDup
  split
  · exact inv
  · rename_i f found
    split
    · exact inv
    · rename_i fd' free
      have used := inv.opens found
      unfold Files.filedup
      rw [if_neg (Nat.not_lt.mpr (show 1 ≤ (s.setOfile p fd' (some f)).ref f from used))]
      refine ⟨(inv.toFilesSound.setOfile acts fd' (some f)).setRef used
        (Nat.succ_pos _), fun g => ?_⟩
      have more := holders_set (show s.rows p fd' = none from fdalloc_free free) f g
      have count := inv.count g
      change update s.ref f (s.ref f + 1) g = holders (s.setOfile p fd' (some f)).rows g
      rw [Files.rows_setOfile, more, ← count]
      by_cases e : g = f
      · subst e
        rw [update_self, if_pos rfl]
      · rw [update_of_ne e, if_neg e]
        rfl

theorem FilesInv.sysOpen (inv : FilesInv s) (acts : (s.proc p).acts) (ip : Fin NINODE)
    (r w : Bool) : Ensures (s.sysOpen p ip r w) FilesInv NotFile := by
  unfold Files.sysOpen
  split
  · exact inv
  · rename_i f found
    have free : s.ref f = 0 := by simpa using List.find?_some found
    have unmapped := inv.toFilesSound.free free
    -- whatever the entry becomes, nothing else depends on it
    have other : ∀ (t : Files) (n : Nat) (file : File), FilesSound t → t.Unmapped f →
        (0 < n → file.type = .inode ∧ file.ip.isSome) →
          FilesSound ((t.setRef f n).setFile f file) := by
      intro t n file sound none new
      refine ⟨fun g hg => ?_, fun q i g mapped => ?_, sound.idle⟩
      · by_cases e : g = f
        · subst e
          simpa [Files.setRef, Files.setFile] using new
            (by simpa [Files.setRef, Files.setFile] using hg)
        · have := sound.opened g (by simpa [Files.setRef, Files.setFile, e] using hg)
          simpa [Files.setRef, Files.setFile, e] using this
      · have e : g ≠ f := by
          rintro rfl
          exact none q i mapped
        have := sound.mapped q i g mapped
        simpa [Files.setRef, Files.setFile, e] using this
    dsimp only
    split
    · unfold Files.fileclose
      have one : (s.setRef f 1).ref f = 1 := by simp [Files.setRef]
      rw [one, if_neg (by decide), if_neg (by decide)]
      have again : (s.setRef f 1).setRef f 0 = s := by
        unfold Files.setRef
        rw [update_idem, ← free, update_eq_self]
      rw [again]
      have kept : s.setRef f 0 = s := by
        unfold Files.setRef
        rw [← free, update_eq_self]
      refine ⟨?_, inv.count⟩
      have := other s 0 { s.fs.file f with type := .none } inv.toFilesSound unmapped (by simp)
      rwa [kept] at this
    · rename_i fd found'
      have noFd : s.rows p fd = none := fdalloc_free found'
      have unmapped' : (s.setOfile p fd (some f)).Unmapped f := by
        intro q i mapped
        rw [(Files.setOfile_other fd (some f) q).1] at mapped
        exact unmapped q i mapped
      refine ⟨other _ 1 ⟨.inode, r, w, some ip, 0⟩ (inv.toFilesSound.setOfile acts fd (some f))
        unmapped' (fun _ => ⟨rfl, rfl⟩), fun g => ?_⟩
      change update s.ref f 1 g = holders (s.setOfile p fd (some f)).rows g
      rw [Files.rows_setOfile, holders_set noFd f g, ← inv.count]
      by_cases e : g = f
      · subst e
        rw [update_self, if_pos rfl, free]
      · rw [update_of_ne e, if_neg e]
        rfl

/-- The part of a row that the loop of fork has not counted yet. -/
def pending (fds : List (Fin NOFILE)) (row : Fin NOFILE → Option (Fin NFILE)) :
    Fin NOFILE → Option (Fin NFILE) := fun fd => if fd ∈ fds then row fd else none

theorem pending_head (fd : Fin NOFILE) (fds : List (Fin NOFILE))
    (row : Fin NOFILE → Option (Fin NFILE)) : pending (fd :: fds) row fd = row fd :=
  if_pos List.mem_cons_self

theorem pending_tail {fds : List (Fin NOFILE)} (new : fd ∉ fds)
    (row : Fin NOFILE → Option (Fin NFILE)) :
    pending fds row = update (pending (fd :: fds) row) fd none := by
  funext x
  by_cases e : x = fd
  · rw [e, update_self]
    exact if_neg new
  · rw [update_of_ne e]
    simp [pending, e]

theorem FilesSound.dupLoop (fds : List (Fin NOFILE)) (distinct : fds.Nodup) (sound : FilesSound s)
    (held : ∀ fd f, (s.proc p).ofile fd = some f → 0 < s.ref f)
    (count : ∀ f, s.ref f + (fibre (pending fds (s.rows p)) f).card = holders s.rows f) :
    Ensures (fds.foldlM (Files.dupFd p) s) FilesInv NotFile := by
  induction fds generalizing s with
  | nil =>
    refine ⟨sound, fun f => ?_⟩
    rw [← count f, card_fibre_none (f := pending [] (s.rows p)) fun _ => if_neg List.not_mem_nil]
    rfl
  | cons fd fds ih =>
    obtain ⟨new, distinct'⟩ := List.nodup_cons.mp distinct
    rw [List.foldlM_cons]
    unfold Files.dupFd
    cases here : (s.proc p).ofile fd with
    | none =>
      refine ih distinct' sound held fun f => ?_
      have same : pending fds (s.rows p) = pending (fd :: fds) (s.rows p) := by
        rw [pending_tail new, update_eq_self_iff, pending_head]
        exact here.symm
      rw [same]
      exact count f
    | some f =>
      have used := held fd f here
      dsimp only
      unfold Files.filedup
      rw [if_neg (by omega)]
      refine ih distinct' (sound.setRef used (Nat.succ_pos _)) (fun fd' g hg => ?_) fun g => ?_
      · have := held fd' g hg
        by_cases e : g = f
        · subst e
          simp [Files.setRef]
        · simpa [Files.setRef, e] using this
      · have less := card_fibre_clear ((pending_head fd fds (s.rows p)).trans here) g
        have total := count g
        rw [← pending_tail new] at less
        change update s.ref f (s.ref f + 1) g + (fibre (pending fds (s.rows p)) g).card =
          holders s.rows g
        by_cases e : g = f
        · subst e
          rw [if_pos rfl] at less
          rw [update_self]
          omega
        · rw [if_neg e] at less
          rw [update_of_ne e]
          omega

theorem FilesInv.sysFork {c : Slot} (inv : FilesInv s) (acts : (s.proc p).acts)
    (unused : (s.proc c).state = .unused) : Ensures (s.sysFork p c) FilesInv NotFile := by
  have apart : p ≠ c := by
    rintro rfl
    exact acts.1 unused
  obtain ⟨noFd, noMap⟩ := inv.idle c (fun h => h.1 unused)
  refine (fork_forks _ _).bind fun ⟨child, v⟩ ⟨⟨k, same⟩, forked⟩ => ?_
  subst same
  have base :=
    inv.upkeep acts (v := { s.view p with kmem := k }) ⟨.refl _, rfl, rfl, fun _ _ => rfl⟩
  cases child with
  | none => exact base
  | some np =>
    obtain ⟨d, eq⟩ := forked np rfl
    dsimp only
    -- the slot of the child had nothing, so its row is the parent's
    have ofile : np.ofile = (s.proc p).ofile := by
      subst eq
      funext fd
      change (if ((s.proc p).ofile fd).isSome then (s.proc p).ofile fd else (s.proc c).ofile fd) = _
      rw [noFd]
      cases (s.proc p).ofile fd <;> rfl
    have ommap : ∀ i f, (np.ommap i).pfile = some f → ((s.proc p).ommap i).pfile = some f := by
      subst eq
      intro i f
      change (if ((s.proc p).ommap i).pfile.isSome then _ else (s.proc c).ommap i).pfile =
        some f → _
      split
      · exact id
      · intro mapped
        exact absurd (by rw [Live, mapped]; rfl) (noMap i)
    generalize stateEq : (s.install p { s.view p with kmem := k }).addChild p c np = t
    have proc : t.proc = update s.proc c { np with state := .runnable, parent := some p } := by
      subst stateEq
      change update (update s.proc p (s.proc p)) c _ = _
      rw [update_eq_self]
    have origin : t.origin = update s.origin c (s.origin p) := by
      subst stateEq
      rfl
    have fs : t.fs = s.fs ∧ t.ref = s.ref := by
      subst stateEq
      exact ⟨rfl, rfl⟩
    have rows : t.rows = update s.rows c (s.rows p) := by
      funext q
      unfold Files.rows
      rw [proc]
      by_cases e : q = c
      · subst e
        rw [update_self, update_self]
        exact ofile
      · rw [update_of_ne e, update_of_ne e]
    have sound : FilesSound t := by
      refine ⟨by rw [fs.1, fs.2]; exact inv.opened, fun q i f => ?_, fun q => ?_⟩
      · rw [proc, origin, fs.1, fs.2]
        by_cases e : q = c
        · subst e
          rw [update_self, update_self]
          exact fun mapped => inv.mapped p i f (ommap i f mapped)
        · rw [update_of_ne e, update_of_ne e]
          exact inv.mapped q i f
      · rw [proc]
        by_cases e : q = c
        · subst e
          rw [update_self]
          exact fun idle => absurd (by simp [Proc.acts]) idle
        · rw [update_of_ne e]
          exact inv.idle q
    apply sound.dupLoop _ (List.nodup_finRange _)
    · intro fd f held
      rw [proc, update_of_ne apart] at held
      rw [fs.2]
      exact inv.held held
    · intro f
      have copied := holders_update s.rows c (s.rows p) f
      rw [card_fibre_none (f := s.rows c) noFd, ← inv.count] at copied
      rw [rows, fs.2, update_of_ne apart]
      rw [Nat.add_zero] at copied
      rw [copied, show pending (List.finRange NOFILE) (s.rows p) = s.rows p from
        funext fun fd => if_pos (List.mem_finRange fd)]

theorem FilesInv.exit (inv : FilesInv s) (acts : (s.proc p).acts)
    (placed : ∀ i, Live (s.proc p) i → ((s.proc p).ommap i).va ≠ 0)
    (safe : ∀ f, s.ref f = (fibre (s.rows p) f).card →
      ∀ q, q ≠ p → ∀ i, ((s.proc q).ommap i).pfile ≠ some f) :
    Ensures (s.exit p) FilesInv NotFile := by
  refine (exitUnmap_upkeep (inv.taken p) placed).bind fun v unmapped => ?_
  obtain ⟨kept, gone⟩ := unmapped
  have self : (s.install p v).proc p = v.proc := update_self ..
  have closed : Ensures ((List.finRange NOFILE).foldlM (Files.closeFd p) (s.install p v)) (fun t =>
      FilesInv t ∧ (∀ fd, (t.proc p).ofile fd = none) ∧ ∀ i, ¬Live (t.proc p) i) NotFile := by
    apply (inv.upkeep acts kept).closeLoop
    · rw [self, Proc.acts, kept.state]
      exact acts
    · rw [self]
      exact gone
    · intro f only q i mapped
      by_cases e : q = p
      · subst e
        rw [self] at mapped
        exact gone i (by rw [Live, mapped]; rfl)
      · refine safe f ?_ q e i ?_
        · rwa [show (s.install p v).rows p = s.rows p by rw [Files.rows, self]; exact kept.ofile]
            at only
        · rwa [show (s.install p v).proc q = s.proc q from update_of_ne e ..] at mapped
    · exact fun fd notIn => absurd (List.mem_finRange fd) notIn
  exact closed.bind fun t end_ => end_.1.setState end_.2

end Table

/-- The last descriptor of an entry goes only when no mapping is left that uses the
entry. An exit closes every entry that no other process holds, after it has unmapped
the process's own mappings, which it finds only at an address other than 0. mmap stores
through its argument unchecked, so the argument has to be a user address: a kernel one
may be a field of the file table itself. Nor may munmap, exit or a shrinking process free
pages of the kernel. -/
def FileAct.Keeps (s : Files) : FileAct → Prop
  | .sysClose p fd => ∀ f, openFile (s.proc p) fd = some f → s.ref f = 1 →
      ∀ q i, ((s.proc q).ommap i).pfile ≠ some f
  | .exit p => (∀ i, Live (s.proc p) i → ((s.proc p).ommap i).va ≠ 0 ∧
        UnmapsUser (s.proc p) ((s.proc p).ommap i).va) ∧
      ∀ f, s.ref f = (fibre (s.proc p).ofile f).card →
        ∀ q, q ≠ p → ∀ i, ((s.proc q).ommap i).pfile ≠ some f
  | .sysMmap _ _ addr => addr + 4 ≤ KERNBASE
  | .sysMunmap p addr => UnmapsUser (s.proc p) addr
  | .grow p n => n < 0 → (s.proc p).sz ≤ KERNBASE
  | _ => True

theorem FilesInv.step (inv : FilesInv s) {a : FileAct} (legal : a.Legal s)
    (keeps : a.Keeps s) : Ensures (fileStep s a) FilesInv NotFile := by
  cases a with
  | sysOpen p ip r w => exact inv.sysOpen legal ip r w
  | sysDup p fd => exact inv.sysDup legal fd
  | sysClose p fd =>
    change Ensures (s.sysClose p fd) FilesInv NotFile
    unfold Files.sysClose
    split
    · rename_i valid
      refine (inv.closeFd legal fun f held => keeps f ?_).mono fun t closed => closed.1
      rw [openFile, dif_pos valid.symm]
      exact held
    · exact inv
  | sysMmap p fd addr => exact inv.sysMmap legal fd addr
  | sysMunmap p addr =>
    exact (munmap_upkeep (inv.taken p) addr).bind fun r h => inv.upkeep legal h.1
  | load p a => exact (load_upkeep (inv.taken p) a).bind fun r kept => inv.upkeep legal kept
  | store p a b =>
    exact (store_upkeep (inv.taken p) a b true).bind fun r kept => inv.upkeep legal kept
  | sysFork p c => exact inv.sysFork legal.1 legal.2
  | exit p => exact inv.exit legal (fun i live => (keeps.1 i live).1) keeps.2
  | reap p => exact inv.setState (inv.idle p fun h => h.2.2 legal)
  | grow p n => exact (growproc_upkeep _ n).bind fun r kept => inv.upkeep legal kept
  | outside inode off => exact ⟨⟨inv.opened, inv.mapped, inv.idle⟩, inv.count⟩

def NothingOpen (s : Files) : Prop :=
  (∀ p fd, (s.proc p).ofile fd = none) ∧ (∀ p i, ¬Live (s.proc p) i) ∧ ∀ f, s.ref f = 0

theorem NothingOpen.inv (h : NothingOpen s) : FilesInv s where
  opened f used := by
    have := h.2.2 f
    omega
  mapped p i f mapped := absurd (by rw [Live, mapped]; rfl) (h.2.1 p i)
  idle p _ := ⟨h.1 p, h.2.1 p⟩
  count f := by
    rw [h.2.2 f]
    exact (Finset.sum_eq_zero fun p _ => card_fibre_none (h.1 p) f).symm

/-- As long as the last descriptor of an entry is closed only when no mapping uses it, and
no step stores to the kernel's memory or frees it, every live mapping of every process names an entry
that is in use, is an inode and is still the file that was mapped, and no step ends in a
panic of fileread or filewrite. -/
theorem mapped_files_stay_open {s : Files}
    (run : Reaches fileStep (fun s a => a.Legal s ∧ a.Keeps s) NothingOpen s) :
    (∀ p i f, ((s.proc p).ommap i).pfile = some f → 1 ≤ s.ref f ∧ (s.fs.file f).type = .inode ∧
      ∃ ip, (s.fs.file f).ip = some ip ∧ s.origin p i = some ip) ∧
    ∀ a, a.Legal s → a.Keeps s →
      fileStep s a ≠ .error .fileread ∧ fileStep s a ≠ .error .filewrite := by
  have inv : FilesInv s := run.invariant FilesInv (fun _ start => start.inv)
    fun _ _ _ inv allowed done => (inv.step allowed.1 allowed.2).of_ok done
  constructor
  · intro p i f mapped
    obtain ⟨used, origin⟩ := inv.mapped p i f mapped
    obtain ⟨type, inode⟩ := inv.opened f used
    obtain ⟨ip, eq⟩ := Option.isSome_iff_exists.mp inode
    exact ⟨used, type, ip, eq, by rw [← origin, eq]⟩
  · intro a legal keeps
    have ensured := inv.step legal keeps
    exact ⟨fun failed => (ensured.of_error failed).1 rfl,
      fun failed => (ensured.of_error failed).2 rfl⟩

/-- In the same runs an entry has as many references as descriptors of all processes name it.
So open takes an entry that no process has open, and dup and close find a count above 0. -/
theorem references_are_descriptors {s : Files}
    (run : Reaches fileStep (fun s a => a.Legal s ∧ a.Keeps s) NothingOpen s) (f : Fin NFILE) :
    s.ref f = holders s.rows f ∧ (s.filealloc = some f → ∀ p fd, (s.proc p).ofile fd ≠ some f) ∧
      ∀ p fd, openFile (s.proc p) fd = some f → 1 ≤ s.ref f := by
  have inv : FilesInv s := run.invariant FilesInv (fun _ start => start.inv)
    fun _ _ _ inv allowed done => (inv.step allowed.1 allowed.2).of_ok done
  refine ⟨inv.count f, fun found p fd held => ?_, fun p fd => inv.opens⟩
  have used := inv.held held
  have free := List.find?_some found
  simp only [decide_eq_true_eq] at free
  omega

instance (s : Files) (a : FileAct) : Decidable (a.Legal s) := by
  cases a <;> unfold FileAct.Legal <;> infer_instance

instance (s : Files) (a : FileAct) : Decidable (a.Keeps s) := by
  cases a <;> unfold FileAct.Keeps <;> infer_instance

def twoInodes : Files where
  proc := fun p => if p = 0 then { image.proc with ofile := fun _ => none } else {}
  kmem := image.kmem
  fs := { inode := fun i => { size := 100, data := fun _ => if i = 0 then 65 else 66 } }

theorem twoInodes_nothingOpen : NothingOpen twoInodes := by
  have proc : ∀ p, (∀ fd, (twoInodes.proc p).ofile fd = none) ∧
      ∀ i, ¬Live (twoInodes.proc p) i := by
    intro p
    unfold twoInodes
    dsimp only
    split
    · exact ⟨fun _ => rfl, by decide⟩
    · exact ⟨fun _ => rfl, by decide⟩
  exact ⟨fun p => (proc p).1, fun p => (proc p).2, fun _ => rfl⟩

/-- The descriptor that was used to map the file is closed while a copy of it is open. -/
theorem mapped_files_stay_open_dup : ∃ s : Files, ((s.proc 0).ommap 0).pfile = some 0 ∧
    (s.proc 0).ofile 0 = none ∧ 1 ≤ s.ref 0 ∧ fileStep s (.load 0 0xA005) ≠ .error .fileread := by
  have start : Reaches fileStep (fun s a => a.Legal s ∧ a.Keeps s) NothingOpen twoInodes :=
    .start twoInodes_nothingOpen
  obtain ⟨s, run, passed⟩ := start.exists_of_follow
    [.sysOpen 0 0 true true, .sysDup 0 0, .sysMmap 0 0 0x9FF0, .sysClose 0 0]
    (fun s => decide (((s.proc 0).ommap 0).pfile = some 0 ∧ (s.proc 0).ofile 0 = none ∧
      (s.proc 0).acts)) (by decide +kernel)
  obtain ⟨mapped, closed, acts⟩ := of_decide_eq_true passed
  obtain ⟨all, calm⟩ := mapped_files_stay_open run
  exact ⟨s, mapped, closed, (all 0 0 0 mapped).1, (calm (.load 0 0xA005) acts trivial).1⟩

/-- A file that is open twice has two references. -/
theorem references_are_descriptors_dup : ∃ s : Files, (s.proc 0).ofile 0 = some 0 ∧
    (s.proc 0).ofile 1 = some 0 ∧ s.ref 0 = holders s.rows 0 := by
  have start : Reaches fileStep (fun s a => a.Legal s ∧ a.Keeps s) NothingOpen twoInodes :=
    .start twoInodes_nothingOpen
  obtain ⟨s, run, passed⟩ := start.exists_of_follow [.sysOpen 0 0 true true, .sysDup 0 0]
    (fun s => decide ((s.proc 0).ofile 0 = some 0 ∧ (s.proc 0).ofile 1 = some 0))
    (by decide +kernel)
  obtain ⟨first, second⟩ := of_decide_eq_true passed
  exact ⟨s, first, second, (references_are_descriptors run 0).1⟩

/-- After open, mmap and close the mapping names a free entry, and the first access to
it stops the kernel. When the next open has taken the entry, the access reads the
other file. -/
theorem closed_mapping_dangles :
    (∃ s, Reaches fileStep (fun s a => a.Legal s) NothingOpen s ∧
      ((s.proc 0).ommap 0).pfile = some 0 ∧ s.ref 0 = 0 ∧ (s.fs.file 0).type = .none ∧
      fileStep s (.load 0 0xA005) = .error .fileread) ∧
    (∃ s, Reaches fileStep (fun s a => a.Legal s) NothingOpen s ∧
      ((s.proc 0).ommap 0).pfile = some 0 ∧ s.origin 0 0 = some 0 ∧ (s.fs.file 0).ip = some 1 ∧
      (((s.view 0).load 0xA005).toOption.map Prod.fst) = some (some 66)) := by
  have start : Reaches fileStep (fun s a => a.Legal s) NothingOpen twoInodes :=
    .start twoInodes_nothingOpen
  constructor
  · obtain ⟨s, run, passed⟩ := start.exists_of_follow
      [.sysOpen 0 0 true true, .sysMmap 0 0 0x9FF0, .sysClose 0 0]
      (fun s => decide (((s.proc 0).ommap 0).pfile = some 0 ∧ s.ref 0 = 0 ∧
        (s.fs.file 0).type = .none) && (match fileStep s (.load 0 0xA005) with
          | .error e => e == .fileread
          | .ok _ => false)) (by decide +kernel)
    obtain ⟨state, stopped⟩ := Bool.and_eq_true_iff.mp passed
    obtain ⟨mapped, ref, type⟩ := of_decide_eq_true state
    refine ⟨s, run, mapped, ref, type, ?_⟩
    cases step : fileStep s (.load 0 0xA005) with
    | error e =>
      rw [step] at stopped
      rw [eq_of_beq stopped]
    | ok t =>
      rw [step] at stopped
      cases stopped
  · obtain ⟨s, run, passed⟩ := start.exists_of_follow
      [.sysOpen 0 0 true true, .sysMmap 0 0 0x9FF0, .sysClose 0 0, .sysOpen 0 1 true true]
      (fun s => decide (((s.proc 0).ommap 0).pfile = some 0 ∧ s.origin 0 0 = some 0 ∧
        (s.fs.file 0).ip = some 1 ∧
        (((s.view 0).load 0xA005).toOption.map Prod.fst) = some (some 66))) (by decide +kernel)
    exact ⟨s, run, of_decide_eq_true passed⟩

end MmapXv6
