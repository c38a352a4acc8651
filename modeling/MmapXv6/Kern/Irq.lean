import MmapXv6.Lib.Run
import MmapXv6.Lib.Fibre
import MmapXv6.Types

/-! Interrupts across context switches: pushcli and popcli of spinlock.c, and sched, yield,
sleep and forkret of proc.c with the scheduler of each CPU. The depth ncli and the flag intena are
kept by CPU, and belong to the thread that runs on it. -/
namespace MmapXv6.Irq

open Function (update update_self update_of_ne)
open Lib (Reaches update_eq)

/-- A CPU: flag is the interrupt flag of eflags, and proc is none in its scheduler. -/
structure Cpu (P : Type) where
  ncli : Int := 0
  intena : Bool := false
  flag : Bool := false
  proc : Option P := none

/-- What a thread has still to do in the calls that it is in. -/
inductive Op (L : Type)
  | sti
  | acquire (lk : L)
  | release (lk : L)
  | pick
  | loop
  | sched
  /-- the return from yield or sleep, and ncli and the flag at the call -/
  | ret (ncli : Int) (flag : Bool)
  /-- the return from a trap, to the flag and the locks there -/
  | iret (flag : Bool) (depth : Nat)
deriving DecidableEq

/-- A thread, with the intena that sched keeps across swtch. The number of locks that the thread has
taken, and the interrupt flag when it took the first of them, are of the proofs alone. -/
structure Thread (L : Type) where
  ops : List (Op L) := []
  saved : Option Bool := none
  depth : Nat := 0
  took : Bool := false

inductive Tid (C P : Type)
  | sched (c : C)
  | proc (p : P)
deriving DecidableEq

/-- A resting process is in swtch, or has not run yet. -/
structure State (C P L : Type) where
  cpu : C → Cpu P
  lock : L → Option C
  thread : Tid C P → Thread L
  resting : P → Bool

/-- A thread may trap, and in a trap or outside of a call it may call. -/
inductive Act (P L : Type)
  | acquire (lk : L)
  | release (lk : L)
  | yield
  | sleep (lk : L)
  | trap
  | pick (p : Option P)
  | next

section Machine
variable {C P L : Type} [DecidableEq C] [DecidableEq P] [DecidableEq L]

def pushcli (u : Cpu P) : Cpu P :=
  { u with flag := false, ncli := u.ncli + 1, intena := if u.ncli = 0 then u.flag else u.intena }

def popcli (u : Cpu P) : Except Panic (Cpu P) :=
  if u.flag then .error .popcliInterruptible
  else if u.ncli - 1 < 0 then .error .popcli
  else .ok { u with ncli := u.ncli - 1, flag := decide (u.ncli - 1 = 0) && u.intena }

namespace State

def tid (s : State C P L) (c : C) : Tid C P :=
  match (s.cpu c).proc with
  | none => .sched c
  | some p => .proc p

def self (s : State C P L) (c : C) : Thread L := s.thread (s.tid c)

def put (s : State C P L) (c : C) (lock : L → Option C) (u : Cpu P) (x : Thread L) : State C P L :=
  { s with lock := lock, cpu := update s.cpu c u, thread := update s.thread (s.tid c) x }

/-- The thread on c, which has ops left, takes lk. The xchg succeeds at once, for a CPU that
spins does nothing else. -/
def acquire (s : State C P L) (c : C) (lk : L) (ops : List (Op L)) : Except Panic (State C P L) :=
  if s.lock lk = some c then .error .acquire
  else .ok (s.put c (update s.lock lk (some c)) (pushcli (s.cpu c)) { s.self c with
    ops := ops
    depth := (s.self c).depth + 1
    took := if (s.self c).depth = 0 then (s.cpu c).flag else (s.self c).took })

def release (s : State C P L) (c : C) (lk : L) (ops : List (Op L)) : Except Panic (State C P L) :=
  if s.lock lk ≠ some c then .error .release
  else do
    let u ← popcli (s.cpu c)
    .ok (s.put c (update s.lock lk none) u
      { s.self c with ops := ops, depth := (s.self c).depth - 1 })

def sched (pt : L) (s : State C P L) (c : C) (ops : List (Op L)) : Except Panic (State C P L) :=
  if s.lock pt ≠ some c then .error .schedPtableLock
  else if (s.cpu c).ncli ≠ 1 then .error .schedLocks
  else if (s.cpu c).flag then .error .schedInterruptible
  else match (s.cpu c).proc with
    | none => .ok s
    | some p => .ok { s.put c s.lock { s.cpu c with proc := none }
        { s.self c with ops := ops, saved := some (s.cpu c).intena } with
      resting := update s.resting p true }

def goto (s : State C P L) (c : C) (ops : List (Op L)) : State C P L :=
  s.put c s.lock (s.cpu c) { s.self c with ops := ops }

def step (pt : L) (s : State C P L) : C × Act P L → Except Panic (State C P L)
  | (c, .acquire lk) => s.acquire c lk (s.self c).ops
  | (c, .release lk) => s.release c lk (s.self c).ops
  | (c, .yield) => .ok (s.goto c
      (.acquire pt :: .sched :: .release pt :: .ret (s.cpu c).ncli (s.cpu c).flag ::
        (s.self c).ops))
  | (c, .sleep lk) =>
    if (s.cpu c).proc = none then .error .sleep
    else if lk = pt then
      .ok (s.goto c (.sched :: .ret (s.cpu c).ncli (s.cpu c).flag :: (s.self c).ops))
    else .ok (s.goto c (.acquire pt :: .release lk :: .sched :: .release pt :: .acquire lk ::
      .ret (s.cpu c).ncli (s.cpu c).flag :: (s.self c).ops))
  | (c, .trap) => .ok (s.put c s.lock { s.cpu c with flag := false }
      { s.self c with ops := .iret (s.cpu c).flag (s.self c).depth :: (s.self c).ops })
  | (c, .pick none) => .ok (s.goto c (s.self c).ops.tail)
  | (c, .pick (some p)) => .ok { s.put c s.lock { s.cpu c with proc := some p }
        { s.self c with ops := (s.self c).ops.tail } with
      resting := update s.resting p false }
  | (c, .next) =>
    match (s.self c).saved, (s.self c).ops with
    | some intena, _ =>
      .ok (s.put c s.lock { s.cpu c with intena := intena } { s.self c with saved := none })
    | none, .sti :: ops =>
      .ok (s.put c s.lock { s.cpu c with flag := true } { s.self c with ops := ops })
    | none, .acquire lk :: ops => s.acquire c lk ops
    | none, .release lk :: ops => s.release c lk ops
    | none, .sched :: ops => s.sched pt c ops
    | none, .ret _ _ :: ops => .ok (s.goto c ops)
    | none, .iret flag _ :: ops =>
      .ok (s.put c s.lock { s.cpu c with flag := flag } { s.self c with ops := ops })
    | none, .loop :: ops =>
      .ok (s.goto c (.sti :: .acquire pt :: .pick :: .release pt :: .loop :: ops))
    | none, .pick :: _ => .ok s
    | none, [] => .ok s

def inCall : List (Op L) → Bool
  | [] => false
  | .iret _ _ :: _ => false
  | _ => true

def Free (x : Thread L) : Prop := x.saved = none ∧ inCall x.ops = false

def Open (s : State C P L) (c : C) (lk : L) : Prop := s.lock lk = none ∨ s.lock lk = some c

def handler : List (Op L) → Option Nat
  | .iret _ depth :: _ => some depth
  | _ => none

def wants : List (Op L) → Option L
  | .acquire lk :: _ => some lk
  | _ => none

/-- What the thread on c can do. A process makes calls, and a scheduler only in a trap. A trap
is an interrupt, or an exception of code that is not in a call. Its handler gives back the
locks it takes. -/
def Can (s : State C P L) : C × Act P L → Prop
  | (c, .acquire lk) => Free (s.self c) ∧ s.Open c lk
  | (c, .release _) => Free (s.self c) ∧ ∀ depth ∈ handler (s.self c).ops, depth < (s.self c).depth
  | (c, .yield) => Free (s.self c) ∧ (s.cpu c).proc ≠ none
  | (c, .sleep _) => Free (s.self c)
  | (c, .trap) => (s.cpu c).flag = true ∨ Free (s.self c) ∧ (s.cpu c).proc ≠ none
  | (c, .pick p) => (s.self c).ops.head? = some .pick ∧ (s.cpu c).proc = none ∧
    ∀ q ∈ p, s.resting q = true
  | (c, .next) => (s.self c).ops.head? ≠ some .pick ∧ (∀ lk ∈ wants (s.self c).ops, s.Open c lk) ∧
      ∀ depth ∈ handler (s.self c).ops, (s.self c).depth = depth

instance (x : Thread L) : Decidable (Free x) := inferInstanceAs (Decidable (_ ∧ _))

instance (s : State C P L) (c : C) (lk : L) : Decidable (s.Open c lk) :=
    inferInstanceAs (Decidable (_ ∨ _))

instance decidableCan (s : State C P L) : (a : C × Act P L) → Decidable (s.Can a)
  | (_, .acquire _) | (_, .yield) => inferInstanceAs (Decidable (_ ∧ _))
  | (_, .release _) => inferInstanceAs (Decidable (_ ∧ ∀ _ ∈ _, _ < _))
  | (_, .sleep _) => inferInstanceAs (Decidable (Free _))
  | (_, .trap) => inferInstanceAs (Decidable (_ ∨ _ ∧ _))
  | (_, .pick _) => inferInstanceAs (Decidable (_ ∧ _ ∧ ∀ _ ∈ _, _ = _))
  | (_, .next) => inferInstanceAs (Decidable (_ ∧ (∀ _ ∈ _, Open _ _ _) ∧ ∀ _ ∈ _, _ = _))

/-- Every CPU is about to enter its scheduler. A process that has not run yet is going to release
ptable.lock in forkret, which its scheduler has taken with interrupts on. -/
structure Boot (pt : L) (s : State C P L) : Prop where
  cpu : ∀ c, (s.cpu c).ncli = 0 ∧ (s.cpu c).proc = none
  lock : ∀ lk, s.lock lk = none
  sched : ∀ c, s.thread (.sched c) = ⟨[.loop], none, 0, false⟩
  proc : ∀ p, s.thread (.proc p) = ⟨[.release pt], none, 1, true⟩ ∧ s.resting p = true

end State

end Machine

/-! The interrupt state of a thread, as if it had a CPU of its own. -/

/-- No lock, and the flag; or n + 1 locks, with interrupts off, and the flag when the first
was taken. -/
inductive Own
  | free (flag : Bool)
  | held (n : Nat) (took : Bool)

namespace Own

def acquire : Own → Own
  | free flag => held 0 flag
  | held n took => held (n + 1) took

def release : Own → Option Own
  | free _ => none
  | held 0 took => some (free took)
  | held (n + 1) took => some (held n took)

def depth : Own → Nat
  | free _ => 0
  | held n _ => n + 1

def flag : Own → Bool
  | free flag => flag
  | held _ _ => false

/-- What a thread may have left to do: a switch needs one lock, and every return finds the
state that it tells. -/
def Fits {L : Type} : List (Op L) → Own → Prop
  | [], _ => True
  | .sti :: ops, i => i.depth = 0 ∧ Fits ops (free true)
  | .acquire _ :: ops, i => Fits ops i.acquire
  | .release _ :: ops, i => ∀ j, i.release = some j → Fits ops j
  | .pick :: ops, i => i = held 0 true ∧ ∀ took, Fits ops (held 0 took)
  | .loop :: _, i => i.depth = 0
  | .sched :: ops, i => i.depth = 1 → Fits ops i
  | .ret ncli flag :: ops, i => (ncli = i.depth ∧ flag = i.flag) ∧ Fits ops i
  | .iret flag 0 :: ops, _ => Fits ops (free flag)
  | .iret flag (n + 1) :: ops, i => flag = false ∧ ∃ m took, n ≤ m ∧ i = held m took ∧
    Fits ops (held n took)

variable {L : Type} {ops : List (Op L)} {i j : Own}

theorem release_acquire : i.acquire.release = some i := by
  cases i <;> rfl

theorem acquire_of_release (one : i.depth = 1) (done : i.release = some j) : j.acquire = i := by
  cases i with
  | free => cases one
  | held n took =>
    cases one
    cases done
    rfl

theorem Fits.acquire (calls : State.inCall ops = false) (fits : Fits ops i) :
    Fits ops i.acquire := by
  match ops with
  | [] => trivial
  | .iret _ 0 :: _ => exact fits
  | .iret _ (n + 1) :: _ =>
    obtain ⟨off, m, took, below, rfl, rest⟩ := fits
    exact ⟨off, m + 1, took, by omega, rfl, rest⟩

theorem Fits.release (calls : State.inCall ops = false)
    (inner : ∀ n ∈ State.handler ops, n < i.depth)
    (fits : Fits ops i) (done : i.release = some j) : Fits ops j := by
  match ops with
  | [] => trivial
  | .iret _ 0 :: _ => exact fits
  | .iret flag (n + 1) :: rest =>
    obtain ⟨off, m, took, below, rfl, goes⟩ := fits
    have more := inner (n + 1) rfl
    obtain ⟨k, rfl⟩ :=
      Nat.exists_eq_succ_of_ne_zero (show m ≠ 0 by simp only [depth] at more; omega)
    cases done
    exact ⟨off, k, took, by simp only [depth] at more; omega, rfl, goes⟩

end Own

section Invariant
variable {C P L : Type}

def Cpu.own (u : Cpu P) (x : Thread L) : Own :=
  match x.depth with
  | 0 => .free u.flag
  | n + 1 => .held n (x.saved.getD u.intena)

structure Sound (u : Cpu P) (x : Thread L) : Prop where
  ncli : u.ncli = x.depth
  off : 0 < x.depth → u.flag = false
  saved : x.saved ≠ none → x.depth = 1
  fits : Own.Fits x.ops (u.own x)

/-- A release will enable interrupts as they were when the lock was taken. -/
def Took (u : Cpu P) (x : Thread L) : Prop := 0 < x.depth → x.saved.getD u.intena = x.took

structure Inv (s : State C P L) : Prop where
  sound : ∀ c, Sound (s.cpu c) (s.self c)
  took : ∀ c p, (s.cpu c).proc = some p → Took (s.cpu c) (s.thread (.proc p))
  sched : ∀ c, (s.thread (.sched c)).saved = none
  away : ∀ c p, (s.cpu c).proc = some p → (s.thread (.sched c)).depth = 1 ∧
    ∀ took, Own.Fits (s.thread (.sched c)).ops (.held 0 took)
  rest : ∀ p, s.resting p = true → (s.thread (.proc p)).depth = 1 ∧
    Own.Fits (s.thread (.proc p)).ops (.held 0 ((s.thread (.proc p)).saved.getD true)) ∧
    (s.thread (.proc p)).saved.getD true = (s.thread (.proc p)).took
  once : ∀ c d p, (s.cpu c).proc = some p → (s.cpu d).proc = some p → c = d
  awake : ∀ c p, (s.cpu c).proc = some p → s.resting p = false

variable {s t : State C P L} {c : C} {lock : L → Option C} {u v : Cpu P} {x : Thread L}
  {ops : List (Op L)} {pt lk : L}

theorem State.self_proc {p : P} (runs : (s.cpu c).proc = some p) :
    s.self c = s.thread (.proc p) := by
  rw [State.self, State.tid, runs]

theorem State.self_sched (runs : (s.cpu c).proc = none) : s.self c = s.thread (.sched c) := by
  rw [State.self, State.tid, runs]

theorem Inv.tid_ne (inv : Inv s) {d : C} (other : d ≠ c) : s.tid d ≠ s.tid c := by
  unfold State.tid
  cases here : (s.cpu c).proc with
  | none =>
    cases there : (s.cpu d).proc with
    | none => simpa using other
    | some q => simp
  | some p =>
    cases there : (s.cpu d).proc with
    | none => simp
    | some q =>
      intro same
      cases same
      exact other (inv.once d c p there here)

theorem State.sched_ne_tid {d : C} (other : d ≠ c ∨ (s.cpu c).proc ≠ none) :
    Tid.sched d ≠ s.tid c := by
  unfold State.tid
  split
  · rename_i idle
    simpa [idle] using other
  · simp

theorem Inv.proc_ne_tid (inv : Inv s) {p : P} (resting : s.resting p = true) :
    Tid.proc p ≠ s.tid c := by
  unfold State.tid
  split
  · simp
  · rename_i q runs
    intro here
    cases here
    exact Bool.noConfusion ((inv.awake c p runs).symm.trans resting)

theorem Inv.keeps (inv : Inv s) : ((s.cpu c).proc = none → (s.self c).saved = none) ∧
    ∀ p, (s.cpu c).proc = some p → Took (s.cpu c) (s.self c) := by
  refine ⟨fun idle => ?_, fun p runs => ?_⟩
  · rw [State.self_sched idle]
    exact inv.sched c
  · rw [State.self_proc runs]
    exact inv.took c p runs

theorem Cpu.own_depth : (u.own x).depth = x.depth := by
  unfold Cpu.own
  split <;> simp_all [Own.depth]

theorem Inv.boot (boot : State.Boot pt s) : Inv s := by
  have idle (c : C) : (s.cpu c).proc = none := (boot.cpu c).2
  refine ⟨fun c => ?_, fun c p runs => ?_, fun c => ?_, fun c p runs => ?_, fun p _ => ?_,
    fun c d p runs => ?_,
    fun c p runs => ?_⟩
  · rw [State.self_sched (idle c), boot.sched]
    exact ⟨(boot.cpu c).1, fun more => absurd more (Nat.lt_irrefl 0),
      fun some => absurd rfl some, rfl⟩
  · cases (idle c).symm.trans runs
  · rw [boot.sched]
  · cases (idle c).symm.trans runs
  · rw [(boot.proc p).1]
    exact ⟨rfl, fun j freed => trivial, rfl⟩
  · cases (idle c).symm.trans runs
  · cases (idle c).symm.trans runs

theorem own_acquire {took : Bool} (plain : x.saved = none) (ncli : u.ncli = x.depth) :
    (pushcli u).own { x with ops := ops, depth := x.depth + 1, took := took } =
      (u.own x).acquire := by
  unfold pushcli Cpu.own
  cases depth : x.depth with
  | zero => simp [plain, ncli, depth, Own.acquire]
  | succ n =>
    have more : u.ncli ≠ 0 := by omega
    simp [plain, more, Own.acquire]

theorem popcli_ok (done : popcli u = .ok v) :
    u.flag = false ∧ 1 ≤ u.ncli ∧
      v = { u with ncli := u.ncli - 1, flag := decide (u.ncli - 1 = 0) && u.intena } := by
  unfold popcli at done
  split at done
  · cases done
  · rename_i off
    split at done
    · cases done
    · cases done
      exact ⟨by simpa using off, by omega, rfl⟩

theorem own_release (plain : x.saved = none) (ncli : u.ncli = x.depth) (done : popcli u = .ok v) :
    (u.own x).release = some (v.own { x with ops := ops, depth := x.depth - 1 }) := by
  obtain ⟨-, some, rfl⟩ := popcli_ok done
  obtain ⟨n, depth⟩ := Nat.exists_eq_succ_of_ne_zero (show x.depth ≠ 0 by omega)
  unfold Cpu.own
  rw [depth]
  cases n with
  | zero => simp [plain, ncli, depth, Own.release]
  | succ n => simp [plain, Own.release]

variable [DecidableEq C] [DecidableEq P]

theorem State.put_cpu : (s.put c lock u x).cpu c = u := update_self _ _ _

theorem State.put_cpu_ne {d : C} (other : d ≠ c) : (s.put c lock u x).cpu d = s.cpu d :=
    update_of_ne other _ _

theorem State.put_thread : (s.put c lock u x).thread (s.tid c) = x := update_self _ _ _

theorem State.put_thread_ne {i : Tid C P} (other : i ≠ s.tid c) :
    (s.put c lock u x).thread i = s.thread i :=
  update_of_ne other _ _

theorem Inv.put (inv : Inv s) (same : u.proc = (s.cpu c).proc) (sound : Sound u x)
    (saved : (s.cpu c).proc = none → x.saved = none) (took : ∀ p, u.proc = some p → Took u x) :
      Inv (s.put c lock u x) := by
  have proc (d : C) : ((s.put c lock u x).cpu d).proc = (s.cpu d).proc := by
    rcases eq_or_ne d c with rfl | other
    · rw [State.put_cpu, same]
    · rw [State.put_cpu_ne other]
  have tid (d : C) : (s.put c lock u x).tid d = s.tid d := by rw [State.tid, proc, State.tid]
  refine ⟨fun d => ?_, fun d p runs => ?_, fun d => ?_, fun d p runs => ?_, fun p resting => ?_,
    fun d e p => ?_,
    fun d p runs => ?_⟩
  · rw [State.self, tid]
    rcases eq_or_ne d c with rfl | other
    · rw [State.put_thread, State.put_cpu]
      exact sound
    · rw [State.put_thread_ne (inv.tid_ne other), State.put_cpu_ne other]
      exact inv.sound d
  · rw [proc] at runs
    have place : Tid.proc p = s.tid d := by rw [State.tid, runs]
    rcases eq_or_ne d c with rfl | other
    · rw [place, State.put_thread, State.put_cpu]
      exact took p (same.trans runs)
    · rw [State.put_thread_ne (place ▸ inv.tid_ne other), State.put_cpu_ne other]
      exact inv.took d p runs
  · by_cases here : Tid.sched d = s.tid c
    · have idle : (s.cpu c).proc = none := by_contra fun runs => State.sched_ne_tid (.inr runs) here
      rw [here, State.put_thread]
      exact saved idle
    · rw [State.put_thread_ne here]
      exact inv.sched d
  · rw [proc] at runs
    have other : d ≠ c ∨ (s.cpu c).proc ≠ none := by
      rcases eq_or_ne d c with rfl | other
      · exact .inr (by simp [runs])
      · exact .inl other
    rw [State.put_thread_ne (State.sched_ne_tid other)]
    exact inv.away d p runs
  · rw [State.put_thread_ne (inv.proc_ne_tid resting)]
    exact inv.rest p resting
  · rw [proc, proc]
    exact inv.once d e p
  · rw [proc] at runs
    exact inv.awake d p runs

theorem Inv.goto (inv : Inv s) (fits : Own.Fits ops ((s.cpu c).own (s.self c))) :
    Inv (s.goto c ops) := by
  have old := inv.sound c
  exact inv.put rfl ⟨old.ncli, old.off, old.saved, fits⟩ inv.keeps.1 inv.keeps.2

theorem Inv.switch (inv : Inv s) (plain : (s.self c).saved = none)
    (fits : ((s.cpu c).own (s.self c)).depth = 1 → Own.Fits ops ((s.cpu c).own (s.self c)))
    (done : s.sched pt c ops = .ok t) : Inv t := by
  have old := inv.sound c
  unfold State.sched at done
  split at done
  · cases done
  split at done
  · cases done
  split at done
  · cases done
  rename_i one off
  split at done
  · cases done
    exact inv
  · rename_i p runs
    cases done
    have ncli := old.ncli
    have single : (s.self c).depth = 1 := by omega
    have own : (s.cpu c).own (s.self c) = .held 0 (s.cpu c).intena := by
      simp [Cpu.own, single, plain]
    have place : s.tid c = .proc p := by rw [State.tid, runs]
    have away {d : C} {q : P}
        (other : (update s.cpu c { s.cpu c with proc := none } d).proc = some q) :
        d ≠ c ∧ (s.cpu d).proc = some q ∧ q ≠ p := by
      rcases eq_or_ne d c with rfl | ne
      · rw [update_self] at other
        cases other
      · rw [update_of_ne ne] at other
        exact ⟨ne, other, fun same => ne (inv.once d c q other (same ▸ runs))⟩
    refine ⟨fun d => ?_, fun d q other => ?_, fun d => ?_, fun d q other => ?_, fun q rests => ?_,
      fun d e q here there => ?_,
      fun d q other => ?_⟩
    · rcases eq_or_ne d c with rfl | ne
      · obtain ⟨depth, goes⟩ := inv.away d p runs
        have idle := inv.sched d
        simp only [State.self, State.tid, State.put, update_self, runs]
        rw [update_of_ne (by simp)]
        refine ⟨by simp only [depth]; omega, fun _ => by simpa using off,
          fun saved => absurd idle saved, ?_⟩
        simpa [Cpu.own, depth, idle] using goes (s.cpu d).intena
      · have self := inv.sound d
        have tid := inv.tid_ne ne
        simp only [State.self, State.tid, State.put, update_of_ne ne] at self tid ⊢
        rwa [update_of_ne tid]
    · obtain ⟨ne, running, apart⟩ := away other
      simp only [State.put, place]
      rw [update_of_ne ne, update_of_ne (by simpa using apart)]
      exact inv.took d q running
    · simp only [State.put, place]
      rw [update_of_ne (by simp)]
      exact inv.sched d
    · simp only [State.put, place]
      rw [update_of_ne (by simp)]
      exact inv.away d q (away other).2.1
    · simp only [State.put, place] at rests ⊢
      rcases eq_or_ne q p with rfl | apart
      · rw [update_self]
        have took := inv.keeps.2 q runs (by omega)
        rw [plain, Option.getD_none] at took
        rw [own] at fits
        exact ⟨single, fits rfl, took⟩
      · rw [update_of_ne apart] at rests
        rw [update_of_ne (by simpa using apart)]
        exact inv.rest q rests
    · exact inv.once d e q (away here).2.1 (away there).2.1
    · exact (update_of_ne (away other).2.2 ..).trans (inv.awake d q (away other).2.1)

variable [DecidableEq L]

theorem Inv.acquire (inv : Inv s) (fits : Own.Fits ops ((s.cpu c).own (s.self c)).acquire)
    (plain : (s.self c).saved = none) (done : s.acquire c lk ops = .ok t) : Inv t := by
  have old := inv.sound c
  unfold State.acquire at done
  split at done
  · cases done
  · cases done
    refine inv.put rfl ⟨?_, fun _ => rfl, fun saved => absurd plain saved, ?_⟩ (fun _ => plain)
      fun p runs _ => ?_
    · simp only [pushcli, old.ncli]
      omega
    · rw [own_acquire plain old.ncli]
      exact fits
    · simp only [pushcli, plain, Option.getD_none, old.ncli]
      split
      · rw [if_pos (by omega)]
      · have before := inv.keeps.2 p runs (by omega)
        rw [plain, Option.getD_none] at before
        rw [if_neg (by omega), before]

theorem Inv.release (inv : Inv s)
    (fits : ∀ j, ((s.cpu c).own (s.self c)).release = some j → Own.Fits ops j)
    (plain : (s.self c).saved = none) (done : s.release c lk ops = .ok t) : Inv t := by
  have old := inv.sound c
  unfold State.release at done
  split at done
  · cases done
  · obtain ⟨u, popped, eq⟩ := Lib.bind_ok.mp done
    cases eq
    have next : ((s.cpu c).own (s.self c)).release = some (u.own { s.self c with
        ops := ops, depth := (s.self c).depth - 1 }) := own_release plain old.ncli popped
    obtain ⟨off, some, rfl⟩ := popcli_ok popped
    have ncli := old.ncli
    refine inv.put rfl ⟨?_, fun more => ?_, fun saved => absurd plain saved, fits _ next⟩
      (fun _ => plain)
      fun p runs more => ?_
    · simp only
      omega
    · have inner : (s.cpu c).ncli - 1 ≠ 0 := by simp only at more; omega
      simp [inner]
    · exact inv.keeps.2 p runs (by simp only at more; omega)

theorem Inv.dispatch (inv : Inv s) {p : P} (rests : s.resting p = true)
    (idle : (s.cpu c).proc = none)
    (next : (s.self c).ops = .pick :: ops) (done : s.step pt (c, .pick (some p)) = .ok t) :
    Inv t := by
  cases done
  have old := inv.sound c
  have place : s.tid c = .sched c := by rw [State.tid, idle]
  obtain ⟨own, goes⟩ : (s.cpu c).own (s.self c) = .held 0 true ∧
      ∀ took, Own.Fits ops (.held 0 took) := by
    have fits := old.fits
    rwa [next] at fits
  have plain := inv.keeps.1 idle
  obtain ⟨single, on⟩ : (s.self c).depth = 1 ∧ (s.cpu c).intena = true := by
    unfold Cpu.own at own
    split at own
    · cases own
    · rename_i n depth
      rw [plain, Option.getD_none] at own
      injection own with more on
      exact ⟨by rw [depth, more], on⟩
  have off := old.off (by omega)
  have ncli := old.ncli
  obtain ⟨depth, fits, took⟩ := inv.rest p rests
  have apart (q : P) : Tid.proc q ≠ Tid.sched c := by simp
  have who {d : C} {q : P} (other : (update s.cpu c { s.cpu c with proc := some p } d).proc =
      some q) : (d = c ∧ q = p) ∨ (d ≠ c ∧ (s.cpu d).proc = some q ∧ q ≠ p) := by
    rcases eq_or_ne d c with rfl | ne
    · rw [update_self] at other
      cases other
      exact .inl ⟨rfl, rfl⟩
    · rw [update_of_ne ne] at other
      refine .inr ⟨ne, other, fun same => ?_⟩
      exact Bool.noConfusion ((inv.awake d q other).symm.trans (same ▸ rests))
  refine ⟨fun d => ?_, fun d q other => ?_, fun d => ?_, fun d q other => ?_, fun q away => ?_,
    fun d e q here there => ?_, fun d q other => ?_⟩
  · rcases eq_or_ne d c with rfl | ne
    · simp only [State.self, State.tid, State.put, update_self, idle]
      rw [update_of_ne (apart p)]
      refine ⟨by simp only [depth]; omega, fun _ => off, fun _ => depth, ?_⟩
      simpa [Cpu.own, depth, on] using fits
    · have self := inv.sound d
      have tid := inv.tid_ne ne
      simp only [State.self, State.tid, State.put, update_of_ne ne] at self tid ⊢
      rwa [update_of_ne tid]
  · simp only [State.put, place]
    rw [update_of_ne (apart q)]
    obtain ⟨rfl, rfl⟩ | ⟨ne, running, -⟩ := who other
    · rw [update_self]
      simpa only [Took, on] using fun _ => took
    · rw [update_of_ne ne]
      exact inv.took d q running
  · simp only [State.put, place]
    rcases eq_or_ne d c with rfl | ne
    · rw [update_self]
      exact plain
    · rw [update_of_ne (by simpa using ne)]
      exact inv.sched d
  · simp only [State.put, place]
    obtain ⟨rfl, rfl⟩ | ⟨ne, running, -⟩ := who other
    · rw [update_self, next]
      exact ⟨single, goes⟩
    · rw [update_of_ne (by simpa using ne)]
      exact inv.away d q running
  · simp only [State.put, place]
    have still : s.resting q = true := by
      rcases eq_or_ne q p with rfl | ne
      · exact rests
      · simpa only [update_of_ne ne] using away
    rw [update_of_ne (apart q)]
    exact inv.rest q still
  · obtain ⟨rfl, rfl⟩ | ⟨-, first, ne⟩ := who here
    · obtain ⟨rfl, -⟩ | ⟨-, -, ne⟩ := who there
      · rfl
      · exact absurd rfl ne
    · obtain ⟨-, rfl⟩ | ⟨-, second, -⟩ := who there
      · exact absurd rfl ne
      · exact inv.once d e q first second
  · obtain ⟨rfl, rfl⟩ | ⟨ne, running, ne⟩ := who other
    · exact update_self ..
    · exact (update_of_ne ne ..).trans (inv.awake d q running)

theorem Inv.next (inv : Inv s) (can : s.Can (c, .next)) (done : s.step pt (c, .next) = .ok t) :
    Inv t := by
  have old := inv.sound c
  have fits := old.fits
  simp only [State.step] at done
  split at done
  · rename_i intena saved
    have single : (s.self c).depth = 1 := old.saved (by simp [saved])
    cases done
    refine inv.put rfl ⟨old.ncli, old.off, fun some => absurd rfl some, ?_⟩
      (fun _ => rfl) fun p runs more => ?_
    · simpa [Cpu.own, single, saved] using fits
    · simpa [saved] using inv.keeps.2 p runs more
  all_goals rename_i plain next; rw [next] at fits
  · have none : (s.self c).depth = 0 := Cpu.own_depth.symm.trans fits.1
    cases done
    refine inv.put rfl ⟨old.ncli, fun more => absurd more (by simp only; omega), old.saved, ?_⟩
      inv.keeps.1 inv.keeps.2
    simpa [Cpu.own, none] using fits.2
  · exact inv.acquire fits plain done
  · exact inv.release fits plain done
  · exact inv.switch plain fits done
  · cases done
    exact inv.goto fits.2
  · rename_i flag depth ops
    have same : (s.self c).depth = depth := can.2.2 depth (by rw [next]; rfl)
    cases done
    cases depth with
    | zero =>
      refine inv.put rfl ⟨old.ncli, fun more => absurd same (by simp only at more; omega),
        old.saved, ?_⟩
        inv.keeps.1 inv.keeps.2
      rw [Own.Fits] at fits
      simpa [Cpu.own, same] using fits
    | succ n =>
      obtain ⟨rfl, m, took, -, own, rest⟩ := fits
      refine inv.put rfl ⟨old.ncli, fun _ => rfl, old.saved, ?_⟩ inv.keeps.1 inv.keeps.2
      simp only [Cpu.own, same, Own.held.injEq] at own ⊢
      rw [own.2]
      exact rest
  · cases done
    refine inv.goto ⟨fits, rfl, fun took j free => ?_⟩
    cases free
    rfl
  · cases done
    exact inv
  · cases done
    exact inv

theorem Inv.step (inv : Inv s) {a : Act P L} (can : s.Can (c, a))
    (done : s.step pt (c, a) = .ok t) : Inv t := by
  have old := inv.sound c
  have fits := old.fits
  have ncli : (s.cpu c).ncli = ((s.cpu c).own (s.self c)).depth := by rw [Cpu.own_depth, old.ncli]
  have flag : (s.cpu c).flag = ((s.cpu c).own (s.self c)).flag := by
    unfold Cpu.own
    split
    · rfl
    · exact old.off (by omega)
  cases a with
  | acquire lk => exact inv.acquire (fits.acquire can.1.2) can.1.1 done
  | release lk =>
    refine inv.release (fun j freed => fits.release can.1.2 ?_ freed) can.1.1 done
    rw [Cpu.own_depth]
    exact can.2
  | yield =>
    cases done
    refine inv.goto fun _ j freed => ?_
    cases Own.release_acquire.symm.trans freed
    exact ⟨⟨ncli, flag⟩, fits⟩
  | sleep lk =>
    simp only [State.step] at done
    split at done
    · cases done
    split at done
    · cases done
      exact inv.goto fun _ => ⟨⟨ncli, flag⟩, fits⟩
    · cases done
      refine inv.goto fun j freed one k last => ?_
      cases Own.release_acquire.symm.trans freed
      simp only [Own.Fits]
      rw [Own.acquire_of_release one last]
      exact ⟨⟨ncli, flag⟩, fits⟩
  | trap =>
    cases done
    refine inv.put rfl ⟨old.ncli, fun _ => rfl, old.saved, ?_⟩ inv.keeps.1 inv.keeps.2
    cases depth : (s.self c).depth with
    | zero =>
      rw [Own.Fits]
      simpa [Cpu.own, depth] using fits
    | succ n =>
      refine ⟨old.off (by omega), n, (s.self c).saved.getD (s.cpu c).intena, Nat.le_refl n, ?_, ?_⟩
      · simp [Cpu.own, depth]
      · simpa [Cpu.own, depth] using fits
  | pick p =>
    obtain ⟨ops, next⟩ := List.head?_eq_some_iff.mp can.1
    cases p with
    | none =>
      cases done
      rw [next] at fits
      rw [next, List.tail_cons]
      refine inv.goto ?_
      rw [fits.1]
      exact fits.2 true
    | some p => exact inv.dispatch (can.2.2 p rfl) can.2.1 next done
  | next => exact inv.next can done

theorem Inv.run (run : Reaches (State.step pt) State.Can (State.Boot pt) s) : Inv s :=
  run.invariant Inv (fun _ => Inv.boot) fun _ _ _ inv can done => inv.step can done

theorem State.step_depth {a : Act P L} (can : s.Can (c, a)) (done : s.step pt (c, a) = .ok t) :
    (s.self c).depth ≤ (t.thread (s.tid c)).depth ∨
      (s.self c).saved = none ∧ ∃ lk ops, s.release c lk ops = .ok t := by
  have kept {x : Thread L} (more : (s.self c).depth ≤ x.depth) :
      (s.self c).depth ≤ (update s.thread (s.tid c) x (s.tid c)).depth := by
    rw [update_self]
    exact more
  have taken {lk : L} {ops : List (Op L)} (took : s.acquire c lk ops = .ok t) :
      (s.self c).depth ≤ (t.thread (s.tid c)).depth := by
    unfold State.acquire at took
    split at took
    · cases took
    · cases took
      exact kept (Nat.le_succ _)
  cases a with
  | acquire lk => exact .inl (taken done)
  | release lk => exact .inr ⟨can.1.1, lk, _, done⟩
  | yield => cases done; exact .inl (kept (Nat.le_refl _))
  | sleep lk =>
    simp only [State.step] at done
    split at done
    · cases done
    · split at done <;> cases done <;> exact .inl (kept (Nat.le_refl _))
  | trap => cases done; exact .inl (kept (Nat.le_refl _))
  | pick p => cases p <;> cases done <;> exact .inl (kept (Nat.le_refl _))
  | next =>
    simp only [State.step] at done
    split at done
    case h_3 => exact .inl (taken done)
    case h_4 lk ops plain next => exact .inr ⟨plain, lk, ops, done⟩
    case h_5 =>
      unfold State.sched at done
      split at done
      · cases done
      split at done
      · cases done
      split at done
      · cases done
      · split at done <;> cases done
        · exact .inl (Nat.le_refl _)
        · exact .inl (kept (Nat.le_refl _))
    case h_9 => cases done; exact .inl (Nat.le_refl _)
    case h_10 => cases done; exact .inl (Nat.le_refl _)
    all_goals cases done; exact .inl (kept (Nat.le_refl _))

/-- In every run, on every CPU: a return from yield or sleep finds ncli and the interrupt flag
of the call, and the release of a process's last lock sets the flag as it was when its first
was taken. -/
theorem interrupt_state_survives_switches
    (run : Reaches (State.step pt) State.Can (State.Boot pt) s) (c : C) :
    (∀ ncli flag ops, (s.self c).ops = .ret ncli flag :: ops → (s.cpu c).ncli = ncli ∧
      (s.cpu c).flag = flag) ∧
      ∀ p a t, (s.cpu c).proc = some p → (s.thread (.proc p)).depth = 1 → s.Can (c, a) →
        s.step pt (c, a) = .ok t → (t.thread (.proc p)).depth = 0 →
        (t.cpu c).ncli = 0 ∧ (t.cpu c).flag = (s.thread (.proc p)).took := by
  have inv := Inv.run run
  have sound := inv.sound c
  refine ⟨fun ncli flag ops next => ?_, fun p a t runs single can done none => ?_⟩
  · have fits := sound.fits
    rw [next] at fits
    obtain ⟨⟨rfl, rfl⟩, -⟩ := fits
    rw [Cpu.own_depth]
    refine ⟨sound.ncli, ?_⟩
    unfold Cpu.own
    split
    · rfl
    · exact sound.off (by omega)
  · have place : s.tid c = .proc p := by rw [State.tid, runs]
    have took := inv.took c p runs (by omega)
    have ncli := sound.ncli
    rw [State.self_proc runs] at ncli
    obtain more | ⟨plain, lk, ops, freed⟩ := State.step_depth can done
    · rw [place, State.self_proc runs] at more
      omega
    · rw [State.self_proc runs] at plain
      rw [plain, Option.getD_none] at took
      unfold State.release at freed
      split at freed
      · cases freed
      · obtain ⟨u, popped, eq⟩ := Lib.bind_ok.mp freed
        obtain ⟨-, -, rfl⟩ := popcli_ok popped
        cases eq
        rw [State.put_cpu]
        simp [ncli, single, took]

section Counts
variable [Fintype L]

def Counts (s : State C P L) : Prop := ∀ c, (s.cpu c).ncli = (Lib.fibre s.lock c).card

omit [DecidableEq L] in
theorem Counts.put (h : Counts s) (more : Int) (ncli : u.ncli = (s.cpu c).ncli + more)
    (cards : ∀ d, ((Lib.fibre lock d).card : Int) =
      (Lib.fibre s.lock d).card + if d = c then more else 0) : Counts (s.put c lock u x) := by
  intro d
  refine Eq.trans ?_ (cards d).symm
  rcases eq_or_ne d c with rfl | other
  · rw [State.put_cpu, ncli, h d, if_pos rfl]
  · rw [State.put_cpu_ne other, h d, if_neg other, Int.add_zero]

omit [DecidableEq L] in
theorem Counts.keep (h : Counts s) (ncli : u.ncli = (s.cpu c).ncli) : Counts (s.put c s.lock u x) :=
  h.put 0 (by omega) (by simp)

theorem Counts.acquire (h : Counts s) (free : s.Open c lk) (done : s.acquire c lk ops = .ok t) :
    Counts t := by
  unfold State.acquire at done
  split at done
  · cases done
  · rename_i other
    cases done
    refine h.put 1 rfl fun d => ?_
    rw [Lib.card_fibre_set (free.resolve_right other)]
    split <;> simp

theorem Counts.release (h : Counts s) (done : s.release c lk ops = .ok t) : Counts t := by
  unfold State.release at done
  split at done
  · cases done
  · rename_i held
    obtain ⟨u, popped, eq⟩ := Lib.bind_ok.mp done
    obtain ⟨-, -, rfl⟩ := popcli_ok popped
    cases eq
    refine h.put (-1) rfl fun d => ?_
    rw [← Lib.card_fibre_clear (not_not.mp held) d]
    split <;> simp

theorem Counts.step (h : Counts s) {a : Act P L} (can : s.Can (c, a))
    (done : s.step pt (c, a) = .ok t) : Counts t := by
  cases a with
  | acquire lk => exact h.acquire can.2 done
  | release lk => exact h.release done
  | yield => cases done; exact h.keep rfl
  | sleep lk =>
    simp only [State.step] at done
    split at done
    · cases done
    · split at done <;> cases done <;> exact h.keep rfl
  | trap => cases done; exact h.keep rfl
  | pick p => cases p <;> cases done <;> exact h.keep (x := s.self c) rfl
  | next =>
    simp only [State.step] at done
    split at done
    case h_3 next => exact h.acquire (can.2.1 _ (by rw [next]; rfl)) done
    case h_4 => exact h.release done
    case h_5 =>
      unfold State.sched at done
      repeat' split at done
      all_goals cases done
      · exact h
      · exact h.keep (x := s.self c) rfl
    case h_9 | h_10 => cases done; exact h
    all_goals cases done; exact h.keep rfl

/-- In every run, on every CPU, ncli is the number of spinlocks that it has. So interrupts are off
as long as it has one, no interrupt handler runs in between, and popcli never fails in release. -/
theorem locks_keep_interrupts_off (run : Reaches (State.step pt) State.Can (State.Boot pt) s)
    (c : C) : (s.cpu c).ncli = (Lib.fibre s.lock c).card ∧ ∀ lk, s.lock lk = some c →
      (s.cpu c).flag = false ∧ ∀ ops, s.release c lk ops ≠ .error .popcli ∧
        s.release c lk ops ≠ .error .popcliInterruptible := by
  have counts : Counts s := by
    refine run.invariant Counts (fun s boot c => ?_) fun _ _ _ h can done => h.step can done
    rw [(boot.cpu c).1, Lib.card_fibre_none boot.lock]
    rfl
  refine ⟨counts c, fun lk held => ?_⟩
  have some : 0 < (Lib.fibre s.lock c).card := Lib.card_fibre_pos.mpr ⟨lk, held⟩
  have ncli := counts c
  have sound := (Inv.run run).sound c
  have off := sound.off (by have := sound.ncli; omega)
  refine ⟨off, fun ops => ?_⟩
  rw [State.release, if_neg (not_not.mpr held), popcli, if_neg (by simp [off]), if_neg (by omega)]
  exact ⟨nofun, nofun⟩

end Counts

/-- Two CPUs, one process and two locks, of which false is ptable.lock. -/
def twoCpus : State Bool Unit Bool where
  cpu _ := {}
  lock _ := none
  thread
    | .sched _ => ⟨[.loop], none, 0, false⟩
    | .proc _ => ⟨[.release false], none, 1, true⟩
  resting _ := true

/-- A CPU whose scheduler has taken ptable.lock. -/
theorem locks_keep_interrupts_off_one : ∃ s : State Bool Unit Bool, s.lock false = some true ∧
    (s.cpu true).ncli = (Lib.fibre s.lock true).card ∧ (s.cpu true).flag = false := by
  have start : Reaches (State.step false) State.Can (State.Boot false) twoCpus :=
    .start ⟨fun _ => ⟨rfl, rfl⟩, fun _ => rfl, fun _ => rfl, fun _ => ⟨rfl, rfl⟩⟩
  obtain ⟨s, run, passed⟩ := start.exists_of_follow [(true, .next), (true, .next), (true, .next)]
    (fun s => s.lock false = some true) (by decide +kernel)
  have held := of_decide_eq_true passed
  obtain ⟨count, off⟩ := locks_keep_interrupts_off run true
  exact ⟨s, held, count, (off false held).1⟩

/-- The process yields on one CPU and returns on the other. -/
theorem interrupt_state_survives_a_move :
    ∃ s t, Reaches (State.step false) State.Can (State.Boot false) s ∧
      (s.thread (.proc ())).depth = 1 ∧
      s.step false (false, .next) = .ok t ∧ ((t.cpu false).ncli = 0 ∧ (t.cpu false).flag = true) ∧
      (t.self false).ops = [.ret 0 true] ∧ (t.cpu false).ncli = 0 ∧ (t.cpu false).flag = true := by
  have start : Reaches (State.step false) State.Can (State.Boot false) twoCpus :=
    .start ⟨fun _ => ⟨rfl, rfl⟩, fun _ => rfl, fun _ => rfl, fun _ => ⟨rfl, rfl⟩⟩
  let dispatch (c : Bool) : List (Bool × Act Unit Bool) :=
    [(c, .next), (c, .next), (c, .next), (c, .pick (some ()))]
  obtain ⟨s, run, passed⟩ := start.exists_of_follow
    (dispatch true ++ [(true, .next), (true, .yield), (true, .next), (true, .next),
      (true, .next)] ++ dispatch false ++ [(false, .next)])
    (fun s => decide ((s.cpu false).proc = some () ∧ (s.thread (.proc ())).depth = 1 ∧
      (s.thread (.proc ())).took = true ∧ s.Can (false, .next)) && match s.step false
        (false, .next) with
        | .ok t => decide ((t.thread (.proc ())).depth = 0 ∧ (t.self false).ops = [.ret 0 true])
        | .error _ => false) (by decide +kernel)
  simp only [Bool.and_eq_true, decide_eq_true_eq] at passed
  obtain ⟨⟨runs, single, took, can⟩, stepped⟩ := passed
  split at stepped
  · rename_i t done
    simp only [decide_eq_true_eq] at stepped
    refine ⟨s, t, run, single, done, ?_, stepped.2, ?_⟩
    · rw [← took]
      exact (interrupt_state_survives_switches run false).2
        () .next t runs single can done stepped.1
    · exact (interrupt_state_survives_switches (run.step can done) false).1 0 true [] stepped.2
  · cases stepped

end Invariant

end MmapXv6.Irq
