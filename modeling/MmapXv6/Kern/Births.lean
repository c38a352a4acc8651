import MmapXv6.Kern.Kernel
import MmapXv6.Vm.Returns

/-! What a new process takes over from its slot. fork is run in two states that differ
only in what UNUSED slots hold, and the children are compared. -/
namespace MmapXv6

open Lib Function

/-- A mapping as the rest of the kernel sees it: an entry without a file is none. -/
def Mmap.live (m : Mmap) : Option Mmap := if m.pfile.isSome then some m else none

/-- The two states differ only in the stored contents of UNUSED slots. -/
structure SameUsed (s t : Kernel) : Prop where
  state : ∀ q, (t.table.proc q).state = (s.table.proc q).state
  proc : ∀ q, (s.table.proc q).state ≠ .unused → t.table.proc q = s.table.proc q
  ticks : ∀ q, (s.table.proc q).state ≠ .unused → t.ticks q = s.ticks q
  kstack : ∀ q, (s.table.proc q).state ≠ .unused → t.kstack q = s.kstack q
  mlf : t.table.mlf = s.table.mlf
  nextpid : t.table.nextpid = s.table.nextpid
  initproc : t.table.initproc = s.table.initproc
  kmem : t.kmem = s.kmem
  fs : t.fs = s.fs
  ref : t.ref = s.ref
  sem : t.sem = s.sem

/-- The process in slot np has the same memory, files, semaphores and mappings, and the
same standing with the scheduler. -/
structure SameChild (np : Slot) (s t : Kernel) : Prop where
  pgdir : (t.table.proc np).pgdir = (s.table.proc np).pgdir
  sz : (t.table.proc np).sz = (s.table.proc np).sz
  sstack : (t.table.proc np).sstack = (s.table.proc np).sstack
  mem : t.kmem.mem = s.kmem.mem
  ofile : (t.table.proc np).ofile = (s.table.proc np).ofile
  osemaphore : (t.table.proc np).osemaphore = (s.table.proc np).osemaphore
  ommap : ∀ i, ((t.table.proc np).ommap i).live = ((s.table.proc np).ommap i).live
  killed : (t.table.proc np).killed = (s.table.proc np).killed
  priority : (t.table.proc np).priority = (s.table.proc np).priority
  age : (t.table.proc np).age = (s.table.proc np).age
  ticks : t.ticks np = s.ticks np

/-- The slot np holds the same in the fields that neither allocproc nor fork writes when
the parent is p. -/
structure SameRest (p : Proc) (np : Slot) (s t : Kernel) : Prop where
  killed : (t.table.proc np).killed = (s.table.proc np).killed
  ticks : t.ticks np = s.ticks np
  ofile : ∀ i, p.ofile i = none → (t.table.proc np).ofile i = (s.table.proc np).ofile i
  osemaphore : ∀ i, p.osemaphore i = none →
    (t.table.proc np).osemaphore i = (s.table.proc np).osemaphore i
  ommap : ∀ i, (p.ommap i).pfile = none →
    ((t.table.proc np).ommap i).live = ((s.table.proc np).ommap i).live

section Share
variable {s t s' : Kernel} {p np : Slot}

theorem dupFd_ref {f f' : Files} {fd : Fin NOFILE} (done : Files.dupFd p f fd = .ok f') :
    f' = { f with ref := f'.ref } := by
  unfold Files.dupFd Files.filedup at done
  split at done
  · cases done; rfl
  · split at done
    · cases done
    · cases done; rfl

theorem dupFd_same {f g f' : Files} {fd : Fin NOFILE} (ref : g.ref = f.ref)
    (ofile : (g.proc p).ofile = (f.proc p).ofile) (done : Files.dupFd p f fd = .ok f') :
    Files.dupFd p g fd = .ok { g with ref := f'.ref } := by
  unfold Files.dupFd Files.filedup at done ⊢
  rw [ofile]
  split at done
  · cases done
    simp [← ref]
  · split at done
    · cases done
    · rename_i enough
      cases done
      simp [ref, enough, Files.setRef]

theorem dupSem_sem {u : Kernel} {i : Fin MAXPROCSEM} (done : s.dupSem p i = .ok u) :
    u = { s with sem := u.sem } := by
  unfold Kernel.dupSem at done
  split at done
  · cases done; rfl
  · obtain ⟨sem, -, done⟩ := bind_ok.mp done
    cases done
    rfl

theorem dupSem_same {u : Kernel} {i : Fin MAXPROCSEM} (sem : t.sem = s.sem)
    (osemaphore : (t.table.proc p).osemaphore = (s.table.proc p).osemaphore)
    (done : s.dupSem p i = .ok u) : t.dupSem p i = .ok { t with sem := u.sem } := by
  unfold Kernel.dupSem at done ⊢
  rw [osemaphore, sem]
  split at done
  · cases done
    simp [← sem]
  · obtain ⟨x, dup, done⟩ := bind_ok.mp done
    cases done
    simp [dup]

theorem dupFds_same (ref : t.ref = s.ref)
    (ofile : (t.table.proc p).ofile = (s.table.proc p).ofile) {f : Files}
    (done : (List.finRange NOFILE).foldlM (Files.dupFd p) s.files = .ok f) :
    f = { s.files with ref := f.ref } ∧
      (List.finRange NOFILE).foldlM (Files.dupFd p) t.files =
      .ok { t.files with ref := f.ref } := by
  obtain ⟨g, run, e, rfl⟩ := foldlM_simulates
    (fun f g => f = { s.files with ref := f.ref } ∧ g = { t.files with ref := f.ref })
    (fun f g fd f' same step => by
      obtain ⟨e, rfl⟩ := same
      have ofile' : (t.files.proc p).ofile = (f.proc p).ofile := by rw [e]; exact ofile
      refine ⟨_, dupFd_same (f := f) rfl ofile' step, ?_, rfl⟩
      rw [dupFd_ref step, e])
    _ (t := t.files) ⟨rfl, by simp [Kernel.files, ref]⟩ done
  exact ⟨e, run⟩

theorem dupSems_same (sem : t.sem = s.sem)
    (osemaphore : (t.table.proc p).osemaphore = (s.table.proc p).osemaphore) {u : Kernel}
    (done : (List.finRange MAXPROCSEM).foldlM (Kernel.dupSem p) s = .ok u) :
    u = { s with sem := u.sem } ∧
      (List.finRange MAXPROCSEM).foldlM (Kernel.dupSem p) t = .ok { t with sem := u.sem } := by
  obtain ⟨v, run, e, rfl⟩ := foldlM_simulates
    (fun u v => u = { s with sem := u.sem } ∧ v = { t with sem := u.sem })
    (fun u v i u' same step => by
      obtain ⟨e, rfl⟩ := same
      have osemaphore' : (t.table.proc p).osemaphore = (u.table.proc p).osemaphore := by
        rw [e]; exact osemaphore
      refine ⟨_, dupSem_same (s := u) rfl osemaphore' step, ?_, rfl⟩
      rw [dupSem_sem step, e])
    _ (t := t) ⟨rfl, by simp [← sem]⟩ done
  exact ⟨e, run⟩

/-- The rest of fork reads the counts, the parent's descriptors and semaphores and the
child's priority. -/
theorem forkShare_same (ref : t.ref = s.ref) (sem : t.sem = s.sem)
    (parent : t.table.proc p = s.table.proc p)
    (priority : (t.table.proc np).priority = (s.table.proc np).priority) {r : Option Slot}
    (done : s.forkShare p np = .ok (r, s')) :
    r = some np ∧ ∃ v w, forkQueue s.table p np = .ok v ∧ forkQueue t.table p np = .ok w ∧
      s' = { s with ref := s'.ref, sem := s'.sem, table := v } ∧
      t.forkShare p np = .ok (some np, { t with ref := s'.ref, sem := s'.sem, table := w }) := by
  obtain ⟨f, files, done⟩ := bind_ok.mp done
  obtain ⟨u, sems, done⟩ := bind_ok.mp done
  obtain ⟨v, queued, done⟩ := bind_ok.mp done
  cases done
  obtain ⟨e, files'⟩ := dupFds_same ref (by rw [parent]) files
  have table : (s.setFiles f).table = s.table := by rw [e]; rfl
  obtain ⟨e', sems'⟩ := dupSems_same (s := s.setFiles f)
    (t := t.setFiles { t.files with ref := f.ref })
    sem (by rw [table]; exact congrArg Proc.osemaphore parent) sems
  have same : u.table = s.table := (congrArg Kernel.table e').trans table
  have queued' : forkQueue s.table p np = .ok v := by rwa [same] at queued
  have child : ∃ w, forkQueue t.table p np = .ok w := by
    obtain ⟨l, level, -⟩ := bind_ok.mp queued'
    refine ⟨_, bind_ok.mpr ⟨l, ?_, rfl⟩⟩
    simpa [priority] using level
  obtain ⟨w, child⟩ := child
  refine ⟨rfl, v, w, queued', child, ?_, ?_⟩
  · rw [e', e]
    rfl
  · unfold Kernel.forkShare
    rw [files', ok_bind, sems', ok_bind]
    change (forkQueue t.table p np >>= _) = _
    rw [child, ok_bind]
    rw [e', e]
    rfl

def Kernel.copied (s : Kernel) (t : Ptable) (p np : Slot) (kstack : Nat) (k : Kmem) (d : PgDir) :
    Kernel :=
  { s with
    table := allocprocSetup t np
    kmem := k
    kstack := update s.kstack np kstack }.copyProc p np d

structure ForkCopied (s : Kernel) (p np : Slot) (t : Ptable) (kstack : Nat) (k : Kmem) (d : PgDir) :
    Prop where
  slot : MmapXv6.allocproc s.table = some (np, t)
  memory : ∃ k₀, s.kmem.kalloc = some (kstack, k₀) ∧
    copyuvm ((allocprocSetup t np).proc p).pgdir k₀ ((allocprocSetup t np).proc p).sz =
      .ok (some d, k)

theorem fork_some (forked : s.fork p = .ok (some np, s')) :
    ∃ t kstack k d, ForkCopied s p np t kstack k d ∧
      (s.copied t p np kstack k d).forkShare p np = .ok (some np, s') := by
  unfold Kernel.fork Kernel.allocproc at forked
  cases found : MmapXv6.allocproc s.table with
  | none =>
    simp only [found] at forked
    cases forked
  | some r =>
    obtain ⟨n, t⟩ := r
    cases taken : s.kmem.kalloc with
    | none =>
      simp only [found, taken] at forked
      cases forked
    | some q =>
      obtain ⟨kstack, k₀⟩ := q
      simp only [found, taken] at forked
      obtain ⟨⟨c, k⟩, copy, rest⟩ := bind_ok.mp forked
      cases c with
      | none =>
        obtain ⟨k', -, rest⟩ := bind_ok.mp rest
        cases rest
      | some d =>
        obtain ⟨e, -⟩ := forkShare_same rfl rfl rfl rfl rest
        obtain rfl : np = n := Option.some.inj e
        exact ⟨t, kstack, k, d, ⟨found, k₀, taken, copy⟩, rest⟩

theorem fork_of_copied {t : Ptable} {kstack : Nat} {k : Kmem} {d : PgDir} {r : Option Slot × Kernel}
    (h : ForkCopied s p np t kstack k d)
    (rest : (s.copied t p np kstack k d).forkShare p np = .ok r) : s.fork p = .ok r := by
  obtain ⟨k₀, taken, copy⟩ := h.memory
  unfold Kernel.fork Kernel.allocproc
  rw [h.slot]
  simp only [taken]
  rw [copy, ok_bind]
  exact rest

theorem copied_other {t : Ptable} {kstack : Nat} {k : Kmem} {d : PgDir}
    (found : MmapXv6.allocproc s.table = some (np, t)) {q : Slot} (ne : q ≠ np) :
    (s.copied t p np kstack k d).table.proc q = s.table.proc q := by
  obtain ⟨-, rfl⟩ := allocproc_some found
  simp [Kernel.copied, Kernel.copyProc, allocprocSetup, Ptable.modify, ne]

theorem copied_child {t : Ptable} {kstack : Nat} {k : Kmem} {d : PgDir}
    (found : MmapXv6.allocproc s.table = some (np, t)) (ne : p ≠ np) :
    (s.copied t p np kstack k d).table.proc np =
      { forkProc (s.table.proc p) (s.table.proc np) d with
        osemaphore := fun i => if ((s.table.proc p).osemaphore i).isSome
          then (s.table.proc p).osemaphore i else (s.table.proc np).osemaphore i
        state := .embryo
        pid := s.table.nextpid
        priority := 0
        age := 0 } := by
  obtain ⟨-, rfl⟩ := allocproc_some found
  simp [Kernel.copied, Kernel.copyProc, allocprocSetup, Ptable.modify, ne, forkProc]

theorem allocproc_same {a b u : Ptable} (state : ∀ q, (b.proc q).state = (a.proc q).state)
    (found : MmapXv6.allocproc a = some (np, u)) : ∃ v, MmapXv6.allocproc b = some (np, v) := by
  unfold MmapXv6.allocproc at found ⊢
  simp only [state]
  split at found
  · cases found
  · cases Option.some.inj found
    exact ⟨_, rfl⟩

structure Born (s : Kernel) (p np : Slot) (d : PgDir) (s' : Kernel) : Prop where
  proc : s'.table.proc np =
    { forkProc (s.table.proc p) (s.table.proc np) d with
      osemaphore := fun i => if ((s.table.proc p).osemaphore i).isSome
        then (s.table.proc p).osemaphore i else (s.table.proc np).osemaphore i
      pid := s.table.nextpid
      parent := some p
      next := none
      priority := 0
      age := 0
      state := .runnable }
  ticks : s'.ticks np = s.ticks np

theorem copied_born {t v : Ptable} {kstack : Nat} {k : Kmem} {d : PgDir}
    (found : MmapXv6.allocproc s.table = some (np, t)) (ne : p ≠ np)
    (queued : forkQueue (s.copied t p np kstack k d).table p np = .ok v)
    {ref : Fin NFILE → Nat} {sem : SemId → Semaphore} :
    Born s p np d { s.copied t p np kstack k d with ref := ref, sem := sem, table := v } := by
  refine ⟨?_, rfl⟩
  rw [(makeRunnable_requeued queued).self, Ptable.modify_self, copied_child found ne]

theorem Born.sameChild_iff {t' : Kernel} {d : PgDir} (hidden : SameUsed s t)
    (used : (s.table.proc p).state ≠ .unused) (born : Born s p np d s') (born' : Born t p np d t')
    (mem : t'.kmem.mem = s'.kmem.mem) :
    SameChild np s' t' ↔ SameRest (s.table.proc p) np s t := by
  have parent := hidden.proc p used
  constructor
  · intro h
    refine ⟨?_, ?_, fun i none => ?_, fun i none => ?_, fun i none => ?_⟩
    · simpa [born.proc, born'.proc, forkProc] using h.killed
    · simpa [born.ticks, born'.ticks] using h.ticks
    · simpa [born.proc, born'.proc, forkProc, parent, none] using congrFun h.ofile i
    · simpa [born.proc, born'.proc, forkProc, parent, none] using congrFun h.osemaphore i
    · simpa [born.proc, born'.proc, forkProc, parent, none] using h.ommap i
  · intro h
    constructor
    case mem => exact mem
    case ticks => rw [born.ticks, born'.ticks, h.ticks]
    case ofile =>
      funext i
      cases there : (s.table.proc p).ofile i with
      | none => simpa [born.proc, born'.proc, forkProc, parent, there] using h.ofile i there
      | some f => simp [born.proc, born'.proc, forkProc, parent, there]
    case osemaphore =>
      funext i
      cases there : (s.table.proc p).osemaphore i with
      | none => simpa [born.proc, born'.proc, forkProc, parent, there] using h.osemaphore i there
      | some x => simp [born.proc, born'.proc, forkProc, parent, there]
    case ommap =>
      intro i
      cases there : ((s.table.proc p).ommap i).pfile with
      | none => simpa [born.proc, born'.proc, forkProc, parent, there] using h.ommap i there
      | some f => simp [born.proc, born'.proc, forkProc, parent, there]
    all_goals simp [born.proc, born'.proc, forkProc, parent, h.killed]

end Share

section Plain
variable {s : Kernel} {p np : Slot}

theorem exitLocked_alone {t : Ptable} (awake : ∀ q, (t.proc q).state ≠ .sleeping)
    (childless : ∀ q, (t.proc q).parent ≠ some p) :
    exitLocked t p = .ok (t.modify p fun q => { q with state := .zombie }) := by
  have quiet : wakeup1 t ((t.proc p).parent.map Chan.proc) = .ok t :=
    foldlM_idle _ fun q => by simp [wakeupOne, awake]
  have kept : (List.finRange NPROC).foldlM (reparent p) t = .ok t :=
    foldlM_idle _ fun q => by simp [reparent, childless]
  rw [exitLocked, quiet, ok_bind, kept]
  rfl

theorem exit_plain {t : Ptable} (other : s.table.initproc ≠ some p)
    (unmapped : ∀ i, ((s.table.proc p).ommap i).pfile = none)
    (closed : ∀ fd, (s.table.proc p).ofile fd = none)
    (free : ∀ i, (s.table.proc p).osemaphore i = none) (locked : exitLocked s.table p = .ok t) :
    s.exit p = .ok { s with table := t } := by
  have maps : exitUnmap (s.files.view p) = .ok (s.files.view p) :=
    foldlM_idle _ fun i => by simp [unmapLive, Files.view, Kernel.files, unmapped]
  have same : s.files.install p (s.files.view p) = s.files := by
    simp [Files.install, Files.view, update_eq_self]
  have files : (List.finRange NOFILE).foldlM (Files.closeFd p) s.files = .ok s.files :=
    foldlM_idle _ fun fd => by simp [Files.closeFd, Kernel.files, closed]
  have sems : (List.finRange MAXPROCSEM).foldlM (Kernel.closeSem p) s = .ok s :=
    foldlM_idle _ fun i => by simp [Kernel.closeSem, free]
  unfold Kernel.exit
  rw [if_neg other, maps, ok_bind, same, files, ok_bind]
  change ((List.finRange MAXPROCSEM).foldlM (Kernel.closeSem p) s >>= _) = _
  rw [sems, ok_bind, locked]
  rfl

theorem fork_plain {t : Ptable} (found : MmapXv6.allocproc s.table = some (np, t)) (ne : p ≠ np)
    (legal : s.kmem.Legal) (room : KVMPAGES + 3 ≤ s.kmem.freelist.length)
    (sz : (s.table.proc p).sz = PGSIZE) (there : ((s.table.proc p).pgdir.entry 0).isSome)
    (closed : ∀ fd, (s.table.proc p).ofile fd = none)
    (free : ∀ i, (s.table.proc p).osemaphore i = none) :
    ∃ kstack k d v, s.fork p = .ok (some np, { s.copied t p np kstack k d with table := v }) ∧
      forkQueue (s.copied t p np kstack k d).table p np = .ok v ∧ (⟨d, k⟩ : Uvm).Valid ∧ k.Legal ∧
      k.kend ≤ kstack ∧ kstack < PHYSTOP / PGSIZE ∧
      s.kmem.freelist.length ≤ k.freelist.length + (KVMPAGES + 3) := by
  cases taken : s.kmem.kalloc with
  | none =>
    rw [kalloc_none taken] at room
    simp at room
  | some r =>
    obtain ⟨kstack, k₀⟩ := r
    obtain ⟨legal₀, kend, page⟩ := legal.kalloc taken
    have length : s.kmem.freelist.length = k₀.freelist.length + 1 := by
      rw [(kalloc_some taken).1]; rfl
    obtain ⟨d, k, copy, valid, legal', kend', left⟩ := copyuvm_one legal₀ (by omega) there
    have parent : (allocprocSetup t np).proc p = s.table.proc p := by
      obtain ⟨-, rfl⟩ := allocproc_some found
      simp [allocprocSetup, Ptable.modify, ne]
    have copied : ForkCopied s p np t kstack k d := by
      refine ⟨found, k₀, taken, ?_⟩
      rw [parent, sz]
      exact copy
    generalize child : s.copied t p np kstack k d = c
    have same : c.table.proc p = s.table.proc p := by rw [← child]; exact copied_other found ne
    have files : (List.finRange NOFILE).foldlM (Files.dupFd p) c.files = .ok c.files :=
      foldlM_idle _ fun fd => by simp [Files.dupFd, Kernel.files, same, closed]
    have sems : (List.finRange MAXPROCSEM).foldlM (Kernel.dupSem p) c = .ok c :=
      foldlM_idle _ fun i => by simp [Kernel.dupSem, same, free]
    have level : (c.table.proc np).priority = 0 := by rw [← child, copied_child found ne]
    have queued : ∃ v, forkQueue c.table p np = .ok v := by
      unfold forkQueue makeRunnable
      simp only [Ptable.modify_self, level]
      exact ⟨_, rfl⟩
    obtain ⟨v, queued⟩ := queued
    refine ⟨kstack, k, d, v, fork_of_copied copied ?_, by rw [child]; exact queued, valid, legal',
      by omega, by omega, by omega⟩
    rw [child]
    unfold Kernel.forkShare
    rw [files, ok_bind]
    change ((List.finRange MAXPROCSEM).foldlM (Kernel.dupSem p) c >>= _) = _
    rw [sems, ok_bind, queued]
    rfl

end Plain

section Run

def claimed (t : Ptable) : Ptable := (MmapXv6.allocproc t).elim {} (·.2)

/-- The process table as userinit leaves it, with the first page directory. -/
def oneTable (d : PgDir) : Ptable :=
  let loaded := (allocprocSetup (claimed {}) 0).modify 0 fun q =>
    { q with pgdir := d, sz := PGSIZE, tf := ⟨0, PGSIZE⟩ }
  (makeRunnable { loaded with initproc := some 0 } 0).toOption.getD {}

def onCpu (t : Ptable) : Ptable := ((scheduler t).toOption.getD (none, {})).2

def firstRuns (d : PgDir) (kstack : Slot → Nat) (k : Kmem) : Kernel :=
  { table := onCpu (oneTable d), kstack := kstack, kmem := k }

def twoProcs (s : Kernel) (kstack : Nat) (k : Kmem) (d : PgDir) : Kernel :=
  let copied := s.copied (claimed s.table) 0 1 kstack k d
  { copied with table := (forkQueue copied.table 0 1).toOption.getD {} }

variable {k : Kmem} {d : PgDir} {kstack : Slot → Nat}

theorem firstRuns_slot : MmapXv6.allocproc (firstRuns d kstack k).table =
    some (1, claimed (firstRuns d kstack k).table) := rfl

theorem userinit_returns (booted : k.Booted) (room : KVMPAGES + 3 ≤ k.freelist.length)
    (initcode : Lib.Bytes) : ∃ d kstack k', Kernel.userinit k initcode =
      .ok { table := oneTable d, kstack := kstack, kmem := k' } ∧ (d.entry 0).isSome ∧ k'.Legal ∧
      k.freelist.length ≤ k'.freelist.length + (KVMPAGES + 3) := by
  have legal : k.Legal := ⟨booted.zero, booted.page, booted.data⟩
  cases taken : k.kalloc with
  | none =>
    have empty := kalloc_none taken
    rw [empty] at room
    simp at room
  | some r =>
    obtain ⟨ks, k₁⟩ := r
    obtain ⟨legal₁, -⟩ := legal.kalloc taken
    have length₁ : k.freelist.length = k₁.freelist.length + 1 := by
      rw [(kalloc_some taken).1]; rfl
    obtain ⟨c, k₂, setup, made⟩ := setupkvm_made legal₁.data
    cases c with
    | none =>
      cases made with
      | none short => omega
    | some d =>
      have valid := legal₁.made made
      cases made with
      | some count _ user _ _ _ kdata _ =>
        cases taken₂ : k₂.kalloc with
        | none =>
          have empty := kalloc_none taken₂
          rw [empty] at count
          dsimp only [List.length_nil] at count
          omega
        | some r =>
          obtain ⟨mem, k₃⟩ := r
          have length₃ : k₂.freelist.length = k₃.freelist.length + 1 := by
            rw [(kalloc_some taken₂).1]; rfl
          obtain ⟨⟨code, u⟩, mapped⟩ := mappages_ok (u := ⟨d, k₃⟩) (a := 0)
            (userPte mem) (by decide)
            (by decide) (user 0 (by decide))
          have hands : k₂.Hands k₃ mem := by simpa using kalloc_hands taken₂ (k₃.mem mem)
          have maps := mappages_maps (u := ⟨d, k₂⟩) (by decide) (by decide) hands mapped
          cases maps with
          | none _ empty _ =>
            rw [empty] at length₃
            dsimp only [List.length_nil] at length₃
            omega
          | done moves _ free _ there _ =>
            have moves : Moves False False ⟨d, k₂⟩ u := moves _ _
            have valid' := moves.valid valid
            have data : u.kmem.kdata.1 % PGSIZE = 0 := by
              rw [moves.fixed.2]
              exact (congrArg (fun x : DataAddr => x.1 % PGSIZE) kdata).trans legal₁.data
            have need : PgDir.tableNeed d 0 ≤ 1 := by
              unfold PgDir.tableNeed
              split <;> omega
            have legal' := valid'.legal data
            refine ⟨u.pgdir, update (fun _ => 0) 0 ks,
              { u.kmem with mem := update u.kmem.mem mem initcode }, ?_, there,
              ⟨legal'.zero, legal'.page, legal'.data⟩, by dsimp only at free ⊢; omega⟩
            have slot : Kernel.allocproc { kmem := k } = (some 0, {
                table := allocprocSetup (claimed {}) 0
                kmem := k₁
                kstack := update (fun _ => 0) 0 ks }) := by
              have found : MmapXv6.allocproc {} = some (0, claimed {}) := rfl
              unfold Kernel.allocproc
              rw [found]
              simp only [taken]
            have loaded : Kernel.inituvm ⟨d, k₂⟩ initcode = .ok { u with
                kmem := { u.kmem with mem := update u.kmem.mem mem initcode } } := by
              unfold Kernel.inituvm
              simp only [taken₂]
              rw [mapped]
              rfl
            unfold Kernel.userinit
            rw [slot]
            dsimp only
            rw [setup, ok_bind]
            dsimp only
            rw [loaded, ok_bind]
            rfl

def Lone (t : Ptable) : Prop := ∀ q, (t.proc q).state ≠ .sleeping ∧ (t.proc q).parent ≠ some 1

section Lone
variable {t u : Ptable} {p : Slot}

theorem lone_empty : Lone {} := fun q => ⟨by simp, by simp⟩

theorem Lone.modify (h : Lone t) {f : Proc → Proc} (state : (f (t.proc p)).state ≠ .sleeping)
    (parent : (f (t.proc p)).parent ≠ some 1) : Lone (t.modify p f) := by
  intro q
  by_cases e : q = p
  · subst e
    simpa using ⟨state, parent⟩
  · rw [t.modify_ne f e]
    exact h q

theorem Lone.setup (h : Lone t) (p : Slot) : Lone (allocprocSetup t p) :=
  h.modify (h p).1 (h p).2

theorem Lone.makeRunnable (h : Lone t) : Lone ((MmapXv6.makeRunnable t p).toOption.getD {}) := by
  cases done : MmapXv6.makeRunnable t p with
  | error e => exact lone_empty
  | ok u =>
    have requeued := makeRunnable_requeued done
    intro q
    change (u.proc q).state ≠ .sleeping ∧ (u.proc q).parent ≠ some 1
    by_cases e : q = p
    · subst e
      rw [requeued.self]
      exact ⟨by simp, (h q).2⟩
    · obtain ⟨nx, same⟩ := requeued.other q e
      rw [same]
      exact h q

theorem Lone.onCpu (h : Lone t) : Lone (onCpu t) := by
  unfold MmapXv6.onCpu
  cases done : scheduler t with
  | error e => exact lone_empty
  | ok r =>
    change Lone r.2
    rcases scheduler_ok (r := r.1) (u := r.2) done with ⟨-, e⟩ | ⟨p, v, -, -, same, -, e⟩
    · rw [e]
      exact h
    · have h' : Lone v := by
        intro q
        rw [same]
        exact h q
      rw [e]
      exact h'.modify (by simp [Proc.resume]) (h' p).2

theorem Lone.claimed (h : Lone t) : Lone (claimed t) := by
  unfold MmapXv6.claimed
  cases found : MmapXv6.allocproc t with
  | none => exact lone_empty
  | some r =>
    obtain ⟨n, u⟩ := r
    obtain ⟨-, e⟩ := allocproc_some found
    rw [e]
    exact h.modify (f := fun q => { q with state := .embryo, pid := t.nextpid }) (by simp) (h n).2

theorem Lone.copied {s : Kernel} {np : Slot} {kstack : Nat} (h : Lone s.table)
    (found : MmapXv6.allocproc s.table = some (np, t)) (ne : p ≠ np) :
    Lone (s.copied t p np kstack k d).table := by
  intro q
  by_cases e : q = np
  · subst e
    rw [copied_child found ne]
    exact ⟨by simp, (h q).2⟩
  · rw [copied_other found e]
    exact h q

theorem Lone.forkQueue (h : Lone t) (np : Slot) :
    Lone ((MmapXv6.forkQueue t 0 np).toOption.getD {}) := by
  exact (h.modify (f := fun q => { q with parent := some 0 }) (h np).1 (by simp)).makeRunnable

theorem lone_oneTable (d : PgDir) : Lone (oneTable d) := by
  have made := lone_empty.claimed.setup 0
  have loaded : Lone ((allocprocSetup (MmapXv6.claimed {}) 0).modify 0 fun q =>
      { q with pgdir := d, sz := PGSIZE, tf := ⟨0, PGSIZE⟩ }) := made.modify (made 0).1 (made 0).2
  exact Lone.makeRunnable (p := 0) loaded

end Lone

def childRuns (s : Kernel) (n : Nat) : Kernel :=
  { s with table := onCpu s.table, ticks := update (fun _ => 0) 1 n }

/-- It has exited, and the wait of its parent has given the slot back. -/
def slotFree (s : Kernel) (k : Kmem) : Kernel :=
  let ended := s.table.modify 1 fun q => { q with state := .zombie }
  { s with table := ended.modify 1 Proc.reap, kmem := k, kstack := update s.kstack 1 0 }

section Child
variable {ks n : Nat} {k' : Kmem} {d' : PgDir}

theorem child_alone : Lone (childRuns (twoProcs (firstRuns d kstack k) ks k' d') n).table := by
  have first : Lone (firstRuns d kstack k).table := (lone_oneTable d).onCpu
  have copied : Lone ((firstRuns d kstack k).copied (claimed (firstRuns d kstack k).table) 0 1 ks k'
      d').table := first.copied firstRuns_slot (by decide)
  have child : Lone (twoProcs (firstRuns d kstack k) ks k' d').table := by
    exact copied.forkQueue 1
  exact child.onCpu

theorem child_runs (run : (twoProcs (firstRuns d kstack k) ks k' d').Reached)
    (short : n < QUANTUM) : (childRuns (twoProcs (firstRuns d kstack k) ks k' d') n).Reached := by
  induction n with
  | zero =>
    have fresh : update (fun _ : Slot => 0) 1 0 = fun _ => 0 := by simp
    refine .step run trivial (a := .dispatch) ?_
    unfold childRuns
    rw [fresh]
    rfl
  | succ n ih =>
    refine .step (ih (by omega)) (a := .timer 1) rfl ?_
    simp only [QUANTUM] at short
    have early : n ≠ 4 := by omega
    have word : (n + 1) % 65536 = n + 1 := by omega
    simp [kernelStep, Kernel.timer, childRuns, early, word]

theorem child_exits : kernelStep (childRuns (twoProcs (firstRuns d kstack k) ks k' d') n)
    (.exit 1) = .ok { childRuns (twoProcs (firstRuns d kstack k) ks k' d') n with
      table := (childRuns (twoProcs (firstRuns d kstack k) ks k' d') n).table.modify 1 fun q =>
        { q with state := .zombie } } :=
  exit_plain (fun same => by cases same) (fun _ => rfl) (fun _ => rfl) (fun _ => rfl)
    (exitLocked_alone (fun q => (child_alone q).1) fun q => (child_alone q).2)

theorem child_reaped {k₁ k₂ : Kmem} (freed : k'.kfree ks = .ok k₁)
    (cleared : freevm ⟨d', k₁⟩ = .ok k₂) :
    kernelStep { childRuns (twoProcs (firstRuns d kstack k) ks k' d') n with
      table := (childRuns (twoProcs (firstRuns d kstack k) ks k' d') n).table.modify 1 fun q =>
        { q with state := .zombie } } (.wait 0) =
      .ok (slotFree (childRuns (twoProcs (firstRuns d kstack k) ks k' d') n) k₂) := by
  have found : MmapXv6.wait ((childRuns (twoProcs (firstRuns d kstack k) ks k' d') n).table.modify 1
      fun q => { q with state := .zombie }) 0 = (.reaped 1 2, ((childRuns
      (twoProcs (firstRuns d kstack k) ks k' d') n).table.modify 1 fun q =>
      { q with state := .zombie }).modify 1 Proc.reap) := rfl
  simp only [kernelStep, Kernel.wait]
  rw [found]
  change (k'.kfree ks >>= _) = _
  rw [freed, ok_bind]
  change (freevm ⟨d', k₁⟩ >>= _) = _
  rw [cleared]
  rfl

theorem child_lives_and_dies (valid : (⟨d', k'⟩ : Uvm).Valid) (legal : k'.Legal)
    (page : k'.kend ≤ ks ∧ ks < PHYSTOP / PGSIZE)
    (run : (twoProcs (firstRuns d kstack k) ks k' d').Reached) :
    ∃ k₂, k₂.Legal ∧ k'.freelist.length ≤ k₂.freelist.length ∧ ∀ n < QUANTUM,
      (slotFree (childRuns (twoProcs (firstRuns d kstack k) ks k' d') n) k₂).Reached := by
  obtain ⟨k₁, freed⟩ := kfree_returns page
  have gets := kfree_gets freed
  have valid₁ : (⟨d', k₁⟩ : Uvm).Valid := by
    refine ⟨by dsimp only; rw [gets.kend]; exact valid.zero, fun x pos => ?_⟩
    have count := gets.count x
    rw [gets.kend]
    by_cases same : ks = x
    · exact same ▸ page
    · refine valid.page x ?_
      rw [if_neg same] at count
      unfold Uvm.count at pos ⊢
      dsimp only at pos ⊢
      omega
  obtain ⟨k₂, cleared⟩ := freevm_returns valid₁
  have frees := freevm_frees cleared
  have length : k'.freelist.length ≤ k₁.freelist.length :=
    (List.subperm_ext_iff.mpr fun x _ => by rw [gets.count x]; omega).length_le
  refine ⟨k₂, ⟨?_, fun x free => ?_, ?_⟩, length.trans frees.length_le, fun n short => ?_⟩
  · rw [frees.fixed.1]
    exact valid₁.zero
  · rw [frees.fixed.1]
    refine valid₁.page x ?_
    rw [← frees.count x]
    exact List.count_pos_iff.mpr free
  · rw [frees.fixed.2]
    exact (congrArg (fun x : DataAddr => x.1 % PGSIZE) gets.kdata).trans legal.data
  · exact .step (.step (child_runs run short) (a := .exit 1) rfl child_exits) (a := .wait 0) rfl
      (child_reaped freed cleared)

end Child

theorem exists_firstRuns : ∃ d kstack k, (d.entry 0).isSome ∧ k.Legal ∧
    2 * (KVMPAGES + 3) ≤ k.freelist.length ∧ (firstRuns d kstack k).Reached := by
  have booted : Kmem.Booted { freelist := List.range' 0x200 300 } := by
    refine ⟨by decide, fun x mem => ?_, List.nodup_range' (h := by decide), by decide⟩
    have := List.mem_range'_1.mp mem
    simp only [PHYSTOP, PGSIZE]
    omega
  obtain ⟨d, kstack, k, init, there, legal, left⟩ := userinit_returns booted
    (by simp only [List.length_range', KVMPAGES]; omega) fun _ => 0
  rw [List.length_range'] at left
  refine ⟨d, kstack, k, there, legal, by simp only [KVMPAGES] at left ⊢; omega, ?_⟩
  exact .step (.start ⟨_, _, booted, init⟩) trivial (a := .dispatch) rfl

theorem exists_twoProcs : ∃ d kstack k ks k' d', (d.entry 0).isSome ∧ (⟨d', k'⟩ : Uvm).Valid ∧
    k'.Legal ∧ (k'.kend ≤ ks ∧ ks < PHYSTOP / PGSIZE) ∧ KVMPAGES + 3 ≤ k'.freelist.length ∧
    (twoProcs (firstRuns d kstack k) ks k' d').Reached := by
  obtain ⟨d, kstack, k, there, legal, room, first⟩ := exists_firstRuns
  obtain ⟨ks, k', d', v, forked, queued, valid, legal', low, high, left⟩ := fork_plain
    (s := firstRuns d kstack k) (p := 0) firstRuns_slot (by decide) legal
    (by simp only [firstRuns, KVMPAGES] at room ⊢; omega) rfl there (fun _ => rfl) fun _ => rfl
  refine ⟨d, kstack, k, ks, k', d', there, valid, legal', ⟨low, high⟩, ?_, ?_⟩
  · dsimp only [firstRuns] at left
    omega
  · refine .step first (a := .fork 0) rfl ?_
    have table :
        v = (forkQueue ((firstRuns d kstack k).copied (claimed (firstRuns d kstack k).table)
        0 1 ks k' d').table 0 1).toOption.getD {} := by rw [queued]; rfl
    simp only [kernelStep]
    rw [forked, table]
    rfl

end Run

/-- A successful fork succeeds alike in two states that differ only in UNUSED slots, and
gives the same child if and only if the slot it takes holds the same killed flag, the
same ticks, and the same descriptors, semaphores and mappings where the parent has none. -/
theorem fork_forgets_slot {s t s' : Kernel} {p np : Slot} (hidden : SameUsed s t)
    (running : (s.table.proc p).state = .running) (forked : s.fork p = .ok (some np, s')) :
    ∃ t', t.fork p = .ok (some np, t') ∧
      (SameChild np s' t' ↔ SameRest (s.table.proc p) np s t) := by
  obtain ⟨u, kstack, k, d, copied, rest⟩ := fork_some forked
  obtain ⟨v, found⟩ := allocproc_same hidden.state copied.slot
  have used : (s.table.proc p).state ≠ .unused := by simp [running]
  have ne : p ≠ np := by
    rintro rfl
    exact used (allocproc_some copied.slot).1
  have parent := hidden.proc p used
  have here : (allocprocSetup u np).proc p = s.table.proc p := by
    obtain ⟨-, rfl⟩ := allocproc_some copied.slot
    simp [allocprocSetup, Ptable.modify, ne]
  have there : (allocprocSetup v np).proc p = s.table.proc p := by
    obtain ⟨-, rfl⟩ := allocproc_some found
    simp [allocprocSetup, Ptable.modify, ne, parent]
  have copied' : ForkCopied t p np v kstack k d := by
    refine ⟨found, ?_⟩
    rw [hidden.kmem, there, ← here]
    exact copied.memory
  obtain ⟨-, a, b, queued, queued', e, run⟩ := forkShare_same
    (s := s.copied u p np kstack k d) (t := t.copied v p np kstack k d) hidden.ref hidden.sem
    (by rw [copied_other found ne, copied_other copied.slot ne, parent])
    (by rw [copied_child found ne, copied_child copied.slot ne]) rest
  refine ⟨_, fork_of_copied copied' run, ?_⟩
  have born : Born s p np d s' := by
    rw [e]
    exact copied_born copied.slot ne queued
  refine born.sameChild_iff hidden used (copied_born found ne queued') ?_
  rw [e]
  rfl

/-- A flag left in an UNUSED slot that fork does not take makes no difference. -/
theorem fork_forgets_slot_other : ∃ s t s' t' : Kernel,
    (t.table.proc 5).killed ≠ (s.table.proc 5).killed ∧ s.fork 0 = .ok (some 1, s') ∧
      t.fork 0 = .ok (some 1, t') ∧ SameChild 1 s' t' := by
  obtain ⟨d, kstack, k, there, legal, room, -⟩ := exists_firstRuns
  let s := firstRuns d kstack k
  let t : Kernel := { s with table := s.table.modify 5 fun q => { q with killed := true } }
  obtain ⟨ks, k', d', v, forked, -⟩ := fork_plain (s := s) (p := 0) firstRuns_slot (by decide) legal
    (by simp only [s, firstRuns, KVMPAGES] at room ⊢; omega) rfl there (fun _ => rfl) fun _ => rfl
  have free : (s.table.proc 5).state = .unused := rfl
  have other : ∀ q, q ≠ 5 → t.table.proc q = s.table.proc q :=
    fun q ne => s.table.modify_ne (fun q => { q with killed := true }) ne
  have used : ∀ q, (s.table.proc q).state ≠ .unused → q ≠ 5 := by
    rintro q live rfl
    exact live free
  have hidden : SameUsed s t := by
    refine ⟨fun q => ?_, fun q live => other q (used q live), fun _ _ => rfl, fun _ _ => rfl, rfl,
      rfl, rfl, rfl, rfl, rfl, rfl⟩
    by_cases e : q = 5
    · subst e; simp [t]
    · rw [other q e]
  have rest : SameRest (s.table.proc 0) 1 s t := by
    have same := other 1 (by decide)
    exact ⟨by rw [same], rfl, fun i _ => by rw [same], fun i _ => by rw [same],
      fun i _ => by rw [same]⟩
  obtain ⟨t', forked', iff⟩ := fork_forgets_slot hidden rfl forked
  have flags : (t.table.proc 5).killed ≠ (s.table.proc 5).killed := by
    have set : (t.table.proc 5).killed = true := by simp [t]
    rw [set]
    exact fun clear => by cases clear
  exact ⟨s, t, _, t', flags, forked, forked', iff.mpr rest⟩

/-- A child that ran for one tick and one that ran for none leave slots that tell the
next child apart: it starts with one tick of its time slice gone, or with none. -/
theorem fork_inherits_ticks : ∃ s t s' t' : Kernel, s.Reached ∧ t.Reached ∧ SameUsed s t ∧
    s.fork 0 = .ok (some 1, s') ∧ t.fork 0 = .ok (some 1, t') ∧ s'.ticks 1 = 0 ∧
      t'.ticks 1 = 1 := by
  obtain ⟨d, kstack, k, ks, k', d', there, valid, legal, page, room, run⟩ := exists_twoProcs
  obtain ⟨k₂, legal₂, more, reached⟩ := child_lives_and_dies valid legal page run
  let free (n : Nat) := slotFree (childRuns (twoProcs (firstRuns d kstack k) ks k' d') n) k₂
  have forks : ∀ n, ∃ u, (free n).fork 0 = .ok (some 1, u) ∧ u.ticks 1 = n := by
    intro n
    have found : MmapXv6.allocproc (free n).table = some (1, claimed (free n).table) := rfl
    obtain ⟨ks', k₃, d'', v, forked, -⟩ := fork_plain (s := free n) (p := 0) found
      (by decide) legal₂
      (by dsimp only [free, slotFree]; omega) rfl there (fun _ => rfl) fun _ => rfl
    exact ⟨_, forked, rfl⟩
  obtain ⟨s', forked, zero⟩ := forks 0
  obtain ⟨t', forked', one⟩ := forks 1
  refine ⟨free 0, free 1, s', t', reached 0 (by decide), reached 1 (by decide), ?_, forked,
    forked', zero, one⟩
  have other : ∀ q, ((free 0).table.proc q).state ≠ .unused → q ≠ 1 := by
    rintro q used rfl
    exact used rfl
  have table : (free 1).table = (free 0).table := by simp only [free, slotFree, childRuns]
  constructor
  case ticks =>
    intro q used
    simp [free, slotFree, childRuns, other q used]
  case kmem => simp only [free, slotFree]
  case kstack | fs | ref | sem => simp only [free, slotFree, childRuns, implies_true]
  all_goals simp only [table, implies_true]

end MmapXv6
