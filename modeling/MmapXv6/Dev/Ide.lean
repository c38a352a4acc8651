import MmapXv6.Bio.Transparent
import MmapXv6.Lib.Chain

/-! The request queue of ide.c under the buffer cache of bio.c. Each step is a part of a call
under one lock, or an interrupt; the disk raises one for each command it was given. A process
calls iderw only with a buffer that it has from bget and has not released. -/
namespace MmapXv6

open Lib (Linked Reaches bind_ok ok_bind update_eq)
open Function (update update_of_ne update_self)

variable {b : BufId}

/-- What idestart writes to the ports; data are those of IDE_CMD_WRITE. -/
structure IdeCommand (D : Type) where
  buf : BufId
  drive : Nat
  sector : Nat
  data : Option D

/-- A call of iderw. The slot is the place of the buffer among the appended ones, and none until
idelock is acquired. -/
structure IdeCall where
  b : BufId
  slot : Option Nat

/-- Of the proofs alone are the owner of each buffer, the buffers in the order they were appended,
started and completed by the disk, and the calls that returned. -/
structure Ide (P D : Type) where
  cache : Bcache D
  havedisk1 : Bool
  idequeue : Option BufId := none
  qnext : BufId → Option BufId := fun _ => none
  disk : Option (IdeCommand D) := none
  call : P → Option IdeCall := fun _ => none
  owner : BufId → Option P := fun _ => none
  appended : List BufId := []
  started : List BufId := []
  completed : List BufId := []
  returned : List (BufId × Nat) := []

namespace Ide
variable {P D : Type}

def idestart (s : Ide P D) : Option BufId → Except Panic (Ide P D)
  | none => .error .idestart
  | some b =>
    let x := s.cache.buf b
    .ok { s with
      disk := some ⟨b, x.dev % 2, x.sector % 2 ^ 28, if x.dirty then some x.data else none⟩
      started := s.started ++ [b] }

/-- The handler; read is what insl gets, none if idewait reports an error. -/
def ideintr (s : Ide P D) (read : Option D) : Except Panic (Ide P D) :=
  match s.idequeue with
  | none => .ok s
  | some b =>
    let data :=
      if (s.cache.buf b).dirty then (s.cache.buf b).data else read.getD (s.cache.buf b).data
    let s := { s with
      idequeue := s.qnext b
      cache := s.cache.set b fun x => { x with data := data, valid := true, dirty := false } }
    if s.idequeue ≠ none then s.idestart s.idequeue else .ok s

/-- *pp, where none is &idequeue and some x is &x->qnext. -/
def deref (s : Ide P D) : Option BufId → Option BufId
  | none => s.idequeue
  | some x => s.qnext x

/-- *pp = b -/
def store (s : Ide P D) (b : BufId) : Option BufId → Ide P D
  | none => { s with idequeue := some b }
  | some x => { s with qnext := update s.qnext x (some b) }

def findEnd (s : Ide P D) : Nat → Option BufId → Except Panic (Option BufId)
  | 0, _ => .error .loops
  | fuel + 1, pp =>
    match s.deref pp with
    | none => .ok pp
    | some x => s.findEnd fuel (some x)

/-- The test of the loop of iderw, negated. -/
def done (s : Ide P D) (b : BufId) : Bool := (s.cache.buf b).valid && !(s.cache.buf b).dirty

def Holds (s : Ide P D) (p : P) (b : BufId) : Prop := s.call p = none ∧ s.owner b = some p

variable [DecidableEq P]

instance (s : Ide P D) (p : P) (b : BufId) : Decidable (s.Holds p b) :=
  match found : s.call p with
  | none => decidable_of_iff (s.owner b = some p) (by simp [Holds, found])
  | some _ => isFalse (by simp [Holds, found])

/-- iderw up to acquire(&idelock). -/
def iderw (s : Ide P D) (p : P) (b : BufId) : Except Panic (Ide P D) :=
  if !(s.cache.buf b).busy then .error .iderwNotBusy
  else if s.done b then .error .iderwNothingToDo
  else if (s.cache.buf b).dev ≠ 0 ∧ !s.havedisk1 then .error .iderwNoDisk1
  else .ok { s with call := update s.call p (some ⟨b, none⟩) }

/-- Append b to idequeue. -/
def hang (s : Ide P D) (b : BufId) : Except Panic (Ide P D) := do
  let s : Ide P D := { s with qnext := update s.qnext b none }
  let pp ← s.findEnd (NBUF + 1) none
  return s.store b pp

/-- iderw from acquire(&idelock) to its loop. -/
def append (s : Ide P D) (p : P) (b : BufId) : Except Panic (Ide P D) := do
  let t ← s.hang b
  let t : Ide P D := { t with
    call := update s.call p (some ⟨b, some s.appended.length⟩), appended := s.appended ++ [b] }
  if t.idequeue = some b then t.idestart (some b) else return t

/-- One turn of the loop of iderw. -/
def wait (s : Ide P D) (p : P) (b : BufId) (slot : Nat) : Ide P D :=
  if s.done b then { s with call := update s.call p none, returned := s.returned ++ [(b, slot)] }
  else s

/-- A call of bget that gets a buffer, or has to wait. -/
def get (s : Ide P D) (p : P) (dev sector : Nat) : Except Panic (Ide P D) := do
  match ← bget s.cache dev sector with
  | .got b c => .ok { s with cache := c, owner := update s.owner b (some p) }
  | .taken _ => .ok s

def edit (s : Ide P D) (b : BufId) (f : D → D) (dirty : Bool) : Ide P D :=
  { s with cache := s.cache.set b fun x => { x with data := f x.data, dirty := x.dirty || dirty } }

def release (s : Ide P D) (b : BufId) : Except Panic (Ide P D) := do
  let c ← brelse s.cache b
  .ok { s with cache := c, owner := update s.owner b none }

end Ide

inductive IdeAct (P D : Type)
  | get (p : P) (dev sector : Nat)
  | edit (p : P) (b : BufId) (f : D → D) (dirty : Bool)
  | iderw (p : P) (b : BufId)
  | run (p : P)
  | intr (read : Option D)
  | release (p : P) (b : BufId)

/-- A process in iderw, asleep or awakened for whatever reason, goes on by run. -/
def Ide.step [DecidableEq P] (s : Ide P D) : IdeAct P D → Except Panic (Ide P D)
  | .get p dev sector => if (s.call p).isNone then s.get p dev sector else .ok s
  | .edit p b f dirty => .ok (if s.Holds p b then s.edit b f dirty else s)
  | .iderw p b => if s.Holds p b then s.iderw p b else .ok s
  | .run p =>
    match s.call p with
    | none => .ok s
    | some ⟨b, none⟩ => s.append p b
    | some ⟨b, some slot⟩ => .ok (s.wait p b slot)
  | .intr read =>
    match s.disk with
    | none => .ok s
    | some command =>
      { s with disk := none, completed := s.completed ++ [command.buf] }.ideintr read
  | .release p b => if s.Holds p b then s.release b else .ok s

def Ide.initial (data : BufId → D) (havedisk1 : Bool) : Ide P D :=
    { cache := binit data, havedisk1 := havedisk1 }

/-- The queue is xs: its buffers are appended and not completed, and the first one is started. -/
structure Ide.Queue (s : Ide P D) (xs : List BufId) : Prop where
  linked : Linked s.qnext s.idequeue xs
  nodup : xs.Nodup
  appended : s.appended = s.completed ++ xs
  started : s.started = s.completed ++ xs.take 1
  active : s.disk.map (·.buf) = xs.head?

structure Ide.Calls (s : Ide P D) (xs : List BufId) : Prop where
  ring : ∃ order, RingOf s.cache.links order
  busy : ∀ b, (s.cache.buf b).busy = (s.owner b).isSome
  owner : ∀ p c, s.call p = some c → s.owner c.b = some p
  queued : ∀ b ∈ xs, ∃ p k, s.call p = some ⟨b, some k⟩ ∧ s.completed.length ≤ k
  fresh : ∀ p b, s.call p = some ⟨b, none⟩ → s.done b = false
  slots : ∀ p b k, s.call p = some ⟨b, some k⟩ →
    s.appended[k]? = some b ∧ (s.done b = true ↔ k < s.completed.length)
  returned : ∀ r ∈ s.returned, s.completed[r.2]? = some r.1

section Queue
variable {P D : Type} {s : Ide P D} {xs : List BufId}

namespace Ide

theorem findEnd_linked {fuel : Nat} (pp : Option BufId) (h : Linked s.qnext (s.deref pp) xs)
    (enough : xs.length < fuel) : s.findEnd fuel pp = .ok (xs.getLast?.or pp) := by
  induction xs generalizing fuel pp with
  | nil =>
    obtain ⟨n, rfl⟩ := Nat.exists_eq_succ_of_ne_zero (Nat.ne_of_gt enough)
    rw [findEnd, show s.deref pp = none from h]
    rfl
  | cons x xs ih =>
    obtain ⟨n, rfl⟩ := Nat.exists_eq_succ_of_ne_zero (Nat.ne_of_gt (Nat.zero_lt_of_lt enough))
    rw [findEnd, h.1]
    refine (ih (some x) h.2 (by simpa using enough)).trans ?_
    rw [List.getLast?_cons]
    cases xs.getLast? <;> rfl

theorem Queue.hang (h : s.Queue xs) (out : b ∉ xs) :
    ∃ first next, s.hang b = .ok { s with idequeue := first, qnext := next } ∧
      Linked next first (xs ++ [b]) := by
  have cut : Linked (update s.qnext b none) s.idequeue xs :=
    h.linked.congr fun x mem => update_of_ne (ne_of_mem_of_not_mem mem out) _ _
  have short : xs.length ≤ NBUF := by simpa using List.Nodup.length_le_card h.nodup
  have found : ({ s with qnext := update s.qnext b none } : Ide P D).findEnd (NBUF + 1) none =
      .ok xs.getLast? := by
    rw [findEnd_linked none cut (Nat.lt_succ_of_le short), Option.or_none]
  rw [Ide.hang, found, ok_bind]
  cases last : xs.getLast? with
  | none =>
    cases List.getLast?_eq_none_iff.mp last
    exact ⟨_, _, rfl, rfl, update_self _ _ _⟩
  | some z =>
    have differ : b ≠ z := (ne_of_mem_of_not_mem (List.mem_of_getLast? last) out).symm
    refine ⟨_, _, rfl, cut.snoc h.nodup last (fun x _ ne => update_of_ne ne _ _)
      (update_self _ _ _) ?_⟩
    exact (update_of_ne differ _ _).trans (update_self _ _ _)

end Ide

theorem Ide.Queue.keep (h : s.Queue xs) {cache : Bcache D} {call : P → Option IdeCall}
    {owner : BufId → Option P}
    {returned : List (BufId × Nat)} :
    ({ s with cache := cache, call := call, owner := owner, returned := returned } : Ide P D).Queue
      xs :=
  ⟨h.linked, h.nodup, h.appended, h.started, h.active⟩

theorem Ide.Queue.first (h : s.Queue xs) : s.idequeue = xs.head? := by
  cases xs with
  | nil => exact h.linked
  | cons x xs => exact h.linked.1

theorem Ide.Queue.next {x a : BufId} {j : Nat} (h : s.Queue (x :: xs))
    (late : s.completed.length ≤ j)
    (place : s.appended[j]? = some a) : a = x ↔ j = s.completed.length := by
  rw [h.appended, List.getElem?_append_right late] at place
  obtain ⟨d, rfl⟩ := Nat.exists_eq_add_of_le late
  rw [Nat.add_sub_cancel_left] at place
  cases d with
  | zero => simpa using place.symm
  | succ d =>
    rw [List.getElem?_cons_succ] at place
    have differ : a ≠ x :=
      ne_of_mem_of_not_mem (List.mem_of_getElem? place) (List.nodup_cons.mp h.nodup).1
    simp [differ]

variable [DecidableEq P]

theorem Ide.Queue.append (h : s.Queue xs) {p : P} (out : b ∉ xs) :
    ∃ t, s.append p b = .ok t ∧ t.Queue (xs ++ [b]) ∧ t.cache = s.cache ∧ t.owner = s.owner ∧
      t.completed = s.completed ∧ t.returned = s.returned ∧ t.appended = s.appended ++ [b] ∧
      t.call = update s.call p (some ⟨b, some s.appended.length⟩) := by
  obtain ⟨first, next, hung, linked⟩ := h.hang out
  have nodup : (xs ++ [b]).Nodup := h.nodup.append (List.nodup_singleton b) (by simpa using out)
  have appended : s.appended ++ [b] = s.completed ++ (xs ++ [b]) :=
      by rw [h.appended, List.append_assoc]
  rw [Ide.append, hung, ok_bind]
  cases xs with
  | nil =>
    rw [if_pos linked.1]
    exact ⟨_, rfl, ⟨linked, nodup, appended, by simpa using h.started, rfl⟩, rfl, rfl, rfl,
      rfl, rfl, rfl⟩
  | cons x xs =>
    have other : first ≠ some b := by
      rw [linked.1]
      simpa using fun same : x = b => out (same ▸ List.mem_cons_self)
    rw [if_neg other]
    exact ⟨_, rfl, ⟨linked, nodup, appended, h.started, h.active⟩, rfl, rfl, rfl, rfl, rfl, rfl⟩

theorem Ide.Queue.intr (h : s.Queue xs) (read : Option D) : (s.disk = none ∧ xs = []) ∨
    ∃ x ys t data, xs = x :: ys ∧ s.step (.intr read) = .ok t ∧ t.Queue ys ∧
      t.cache = s.cache.set x (fun b => { b with data := data, valid := true, dirty := false }) ∧
      t.owner = s.owner ∧ t.call = s.call ∧ t.appended = s.appended ∧ t.returned = s.returned ∧
      t.completed = s.completed ++ [x] := by
  cases xs with
  | nil => exact .inl ⟨by simpa using h.active, rfl⟩
  | cons x ys =>
    obtain ⟨command, disk, rfl⟩ := Option.map_eq_some_iff.mp h.active
    obtain ⟨first, linked⟩ := h.linked
    have nodup := (List.nodup_cons.mp h.nodup).2
    have appended : s.appended = s.completed ++ [command.buf] ++ ys := by rw [h.appended]; simp
    have started : s.started = s.completed ++ [command.buf] := h.started
    refine .inr ⟨command.buf, ys, ?_⟩
    simp only [Ide.step, disk, Ide.ideintr, first]
    cases ys with
    | nil =>
      have last : s.qnext command.buf = none := linked
      rw [if_neg (not_not.mpr last)]
      exact ⟨_, _, trivial, rfl, ⟨linked, nodup, appended, by simpa using started, rfl⟩, rfl, rfl,
        rfl, rfl, rfl, rfl⟩
    | cons y ys =>
      have second : s.qnext command.buf = some y := linked.1
      rw [if_pos (by simp [second]), second]
      exact ⟨_, _, trivial, rfl, ⟨second ▸ linked, nodup, appended, by simp [started], rfl⟩, rfl,
        rfl, rfl, rfl, rfl, rfl⟩

end Queue

section Calls
variable {P D : Type} {s : Ide P D} {xs : List BufId}

theorem Ide.iderw_ok [DecidableEq P] {p : P} {t : Ide P D} (done : s.iderw p b = .ok t) :
    s.done b = false ∧ t = { s with call := update s.call p (some ⟨b, none⟩) } := by
  unfold Ide.iderw at done
  split at done
  · cases done
  split at done
  · cases done
  rename_i pending
  split at done
  · cases done
  · exact ⟨Bool.eq_false_iff.mpr pending, (Except.ok.inj done).symm⟩

namespace Ide.Calls

theorem change (h : s.Calls xs) (idle : ∀ q c, s.call q = some c → c.b ≠ b)
    {cache : Bcache D} {o : Option P} (ring : ∃ order, RingOf cache.links order)
    (same : ∀ a, a ≠ b → cache.buf a = s.cache.buf a) (busy : (cache.buf b).busy = o.isSome) :
    ({ s with cache := cache, owner := update s.owner b o } : Ide P D).Calls xs := by
  have done (p c) (called : s.call p = some c) :
      ({ s with cache := cache, owner := update s.owner b o } : Ide P D).done c.b = s.done c.b := by
    simp only [Ide.done, same _ (idle p c called)]
  refine ⟨ring, fun a => ?_, fun p c called => ?_, h.queued, fun p a called => ?_,
    fun p a k called => ?_, h.returned⟩
  · rcases eq_or_ne a b with rfl | other
    · simpa using busy
    · simpa [other, same a other] using h.busy a
  · exact (update_of_ne (idle p c called) _ _).trans (h.owner p c called)
  · rw [done p _ called]
    exact h.fresh p a called
  · rw [done p _ called]
    exact h.slots p a k called

theorem idle (h : s.Calls xs) {p : P} (holds : s.Holds p b) :
    ∀ q c, s.call q = some c → c.b ≠ b := by
  rintro q c called rfl
  cases (h.owner q c called).symm.trans holds.2
  cases holds.1.symm.trans called

theorem out (h : s.Calls xs) {p : P} (called : s.call p = some ⟨b, none⟩) : b ∉ xs := by
  intro mem
  obtain ⟨q, k, queued, -⟩ := h.queued b mem
  have same : q = p :=
    Option.some.inj ((h.owner q _ queued).symm.trans (h.owner p ⟨b, none⟩ called))
  subst same
  cases called.symm.trans queued

theorem get (h : s.Calls xs) {p : P} {dev sector : Nat} {t : Ide P D}
    (done : s.get p dev sector = .ok t) : t.Calls xs := by
  obtain ⟨r, found, done⟩ := bind_ok.mp done
  obtain ⟨order, ring⟩ := h.ring
  have free {b : BufId} (free : (s.cache.buf b).busy = false) :
      ∀ q c, s.call q = some c → c.b ≠ b := by
    rintro q c called rfl
    rw [h.busy, h.owner q c called] at free
    cases free
  obtain ⟨b, rfl⟩ | ⟨b, rfl, unused, -⟩ | ⟨b, rfl, unused, -⟩ := bget_ok ring found
  · cases done
    exact h
  · cases done
    exact h.change (free unused) ⟨order, ring⟩ (fun a => set_ne _) (by simp)
  · cases done
    exact h.change (free unused) ⟨order, ring⟩ (fun a => set_ne _) (by simp)

theorem edit (h : s.Calls xs) {p : P} (holds : s.Holds p b) (f : D → D) (dirty : Bool) :
    (s.edit b f dirty).Calls xs := by
  have same : s.edit b f dirty =
      { s with cache := (s.edit b f dirty).cache, owner := update s.owner b (s.owner b) } := by
    rw [Function.update_eq_self]
    rfl
  rw [same]
  refine h.change (h.idle holds) h.ring (fun a other => ?_) (by simpa [Ide.edit] using h.busy b)
  simp [Ide.edit, set_ne _ other]

theorem release (h : s.Calls xs) {p : P} (holds : s.Holds p b) {t : Ide P D}
    (done : s.release b = .ok t) : t.Calls xs := by
  obtain ⟨c, released, done⟩ := bind_ok.mp done
  obtain ⟨order, ring⟩ := h.ring
  cases done
  unfold brelse at released
  split at released
  · cases released
  · cases released
    exact h.change (h.idle holds) (ring.moveFront b) (fun a other => by simp [Bcache.set, other])
      (by simp [Bcache.set])

theorem intr {x : BufId} {ys : List BufId} (h : s.Calls (x :: ys)) (queue : s.Queue (x :: ys))
    {t : Ide P D} {data : D}
    (cache : t.cache = s.cache.set x fun b =>
      { b with data := data, valid := true, dirty := false })
    (owner : t.owner = s.owner) (calls : t.call = s.call) (appended : t.appended = s.appended)
    (returned : t.returned = s.returned) (completed : t.completed = s.completed ++ [x]) :
      t.Calls ys := by
  have done (a : BufId) : t.done a = if a = x then true else s.done a := by
    rw [Ide.done, cache, set_buf]
    split <;> rfl
  refine ⟨by rw [cache]; exact h.ring, fun a => ?_, by rw [calls, owner]; exact h.owner,
    fun a mem => ?_,
    fun q a found => ?_, fun q a k found => ?_, fun r mem => ?_⟩
  · rw [cache, owner, set_buf, ← h.busy a]
    split <;> rfl
  · obtain ⟨q, k, found, late⟩ := h.queued a (List.mem_cons_of_mem x mem)
    have differ : a ≠ x := ne_of_mem_of_not_mem mem (List.nodup_cons.mp queue.nodup).1
    have := mt (queue.next late (h.slots q a k found).1).mpr differ
    rw [completed, calls]
    exact ⟨q, k, found, by simp; omega⟩
  · rw [calls] at found
    rw [done, if_neg]
    · exact h.fresh q a found
    · rintro rfl
      exact h.out found List.mem_cons_self
  · rw [calls] at found
    obtain ⟨place, early⟩ := h.slots q a k found
    have next := fun late => queue.next (j := k) late place
    rw [appended, done, completed]
    refine ⟨place, ?_⟩
    split
    · rename_i same
      simp only [List.length_append, List.length_singleton, true_iff]
      by_contra above
      exact absurd ((next (by omega)).mp same) (by omega)
    · rename_i differ
      rw [early]
      simp only [List.length_append, List.length_singleton]
      refine ⟨fun below => by omega, fun below => ?_⟩
      by_contra above
      exact differ ((next (by omega)).mpr (by omega))
  · rw [returned] at mem
    have old := h.returned r mem
    rw [completed, List.getElem?_append_left (List.getElem?_eq_some_iff.mp old).1, old]

variable [DecidableEq P]

theorem iderw (h : s.Calls xs) {p : P} (holds : s.Holds p b) {t : Ide P D}
    (done : s.iderw p b = .ok t) : t.Calls xs := by
  obtain ⟨pending, rfl⟩ := iderw_ok done
  refine ⟨h.ring, h.busy, fun q c called => ?_, fun a mem => ?_, fun q a called => ?_,
    fun q a k called => ?_, h.returned⟩
  · rcases update_eq.mp called with ⟨rfl, ⟨⟩⟩ | ⟨-, called⟩
    · exact holds.2
    · exact h.owner q c called
  · obtain ⟨q, k, called, late⟩ := h.queued a mem
    refine ⟨q, k, (update_of_ne ?_ _ _).trans called, late⟩
    rintro rfl
    cases holds.1.symm.trans called
  · rcases update_eq.mp called with ⟨rfl, ⟨⟩⟩ | ⟨-, called⟩
    · exact pending
    · exact h.fresh q a called
  · rcases update_eq.mp called with ⟨rfl, ⟨⟩⟩ | ⟨-, called⟩
    exact h.slots q a k called

theorem wait (h : s.Calls xs) (queue : s.Queue xs) {p : P} {k : Nat}
    (called : s.call p = some ⟨b, some k⟩) : (s.wait p b k).Calls xs := by
  unfold Ide.wait
  split
  · rename_i done
    obtain ⟨place, early⟩ := h.slots p b k called
    refine ⟨h.ring, h.busy, fun q c found => ?_, fun a mem => ?_, fun q a found => ?_,
      fun q a k found => ?_, ?_⟩
    · rcases update_eq.mp found with ⟨-, ⟨⟩⟩ | ⟨-, found⟩
      exact h.owner q c found
    · obtain ⟨q, j, found, late⟩ := h.queued a mem
      refine ⟨q, j, (update_of_ne ?_ _ _).trans found, late⟩
      rintro rfl
      cases called.symm.trans found
      exact absurd (early.mp done) (by omega)
    · rcases update_eq.mp found with ⟨-, ⟨⟩⟩ | ⟨-, found⟩
      exact h.fresh q a found
    · rcases update_eq.mp found with ⟨-, ⟨⟩⟩ | ⟨-, found⟩
      exact h.slots q a k found
    · intro r mem
      rcases List.mem_append.mp mem with old | new
      · exact h.returned r old
      · cases List.mem_singleton.mp new
        rw [queue.appended, List.getElem?_append_left (early.mp done)] at place
        exact place
  · exact h

theorem append (h : s.Calls xs) (queue : s.Queue xs) {p : P}
    (called : s.call p = some ⟨b, none⟩)
    {t : Ide P D} (cache : t.cache = s.cache) (owner : t.owner = s.owner)
      (completed : t.completed = s.completed)
    (returned : t.returned = s.returned) (appended : t.appended = s.appended ++ [b])
    (calls : t.call = update s.call p (some ⟨b, some s.appended.length⟩)) :
    t.Calls (xs ++ [b]) := by
  have short : s.completed.length ≤ s.appended.length := by simp [queue.appended]
  have done (a : BufId) : t.done a = s.done a := by rw [Ide.done, cache]; rfl
  refine ⟨cache ▸ h.ring, ?_, fun q c found => ?_, fun a mem => ?_, fun q a found => ?_,
    fun q a k found => ?_, ?_⟩
  · rw [cache, owner]
    exact h.busy
  · rw [owner]
    rcases update_eq.mp (calls ▸ found) with ⟨rfl, ⟨⟩⟩ | ⟨-, found⟩
    · exact h.owner q ⟨b, none⟩ called
    · exact h.owner q c found
  · rw [completed, calls]
    rcases List.mem_append.mp mem with old | new
    · obtain ⟨q, k, found, late⟩ := h.queued a old
      refine ⟨q, k, (update_of_ne ?_ _ _).trans found, late⟩
      rintro rfl
      cases called.symm.trans found
    · cases List.mem_singleton.mp new
      exact ⟨p, _, update_self _ _ _, short⟩
  · rw [done]
    rcases update_eq.mp (calls ▸ found) with ⟨rfl, ⟨⟩⟩ | ⟨-, found⟩
    exact h.fresh q a found
  · rw [done, completed, appended]
    rcases update_eq.mp (calls ▸ found) with ⟨rfl, ⟨⟩⟩ | ⟨-, found⟩
    · rw [h.fresh q b called]
      simpa using short
    · obtain ⟨place, early⟩ := h.slots q a k found
      have inside := (List.getElem?_eq_some_iff.mp place).1
      exact ⟨by rw [List.getElem?_append_left inside, place], early⟩
  · rw [returned, completed]
    exact h.returned

end Ide.Calls

def Ide.Ok (s : Ide P D) : Prop := ∃ xs, s.Queue xs ∧ s.Calls xs

variable [DecidableEq P]

theorem Ide.Ok.run (h : s.Ok) (p : P) : ∃ t, s.step (.run p) = .ok t ∧ t.Ok := by
  obtain ⟨xs, queue, calls⟩ := h
  unfold Ide.step
  dsimp only
  split
  · exact ⟨s, rfl, xs, queue, calls⟩
  · rename_i b called
    obtain ⟨t, done, queue', cache, owner, completed, returned, appended, call⟩ :=
        queue.append (calls.out called)
    exact ⟨t, done, _, queue',
      calls.append queue called cache owner completed returned appended call⟩
  · rename_i b k called
    refine ⟨_, rfl, xs, ?_, calls.wait queue called⟩
    unfold Ide.wait
    split
    · exact ⟨queue.linked, queue.nodup, queue.appended, queue.started, queue.active⟩
    · exact queue

theorem Ide.Ok.step (h : s.Ok) {a : IdeAct P D} {t : Ide P D} (done : s.step a = .ok t) : t.Ok := by
  cases a with
  | run p =>
    obtain ⟨u, same, ok⟩ := h.run p
    cases done.symm.trans same
    exact ok
  | intr read =>
    obtain ⟨xs, queue, calls⟩ := h
    obtain ⟨disk, rfl⟩ |
        ⟨x, ys, u, data, rfl, same, queue', cache, owner, call, appended, returned, completed⟩ :=
      queue.intr read
    · simp only [Ide.step, disk] at done
      cases done
      exact ⟨[], queue, calls⟩
    · cases done.symm.trans same
      exact ⟨ys, queue', calls.intr queue cache owner call appended returned completed⟩
  | get p dev sector =>
    obtain ⟨xs, queue, calls⟩ := h
    simp only [Ide.step] at done
    split at done
    · have calls := calls.get done
      obtain ⟨r, -, done⟩ := bind_ok.mp done
      split at done
      · cases done
        exact ⟨xs, queue.keep, calls⟩
      · cases done
        exact ⟨xs, queue, calls⟩
    · cases done
      exact ⟨xs, queue, calls⟩
  | edit p b f dirty =>
    obtain ⟨xs, queue, calls⟩ := h
    cases Except.ok.inj done
    split
    · rename_i holds
      exact ⟨xs, queue.keep, calls.edit holds f dirty⟩
    · exact ⟨xs, queue, calls⟩
  | iderw p b =>
    obtain ⟨xs, queue, calls⟩ := h
    simp only [Ide.step] at done
    split at done
    · rename_i holds
      have calls := calls.iderw holds done
      obtain ⟨-, rfl⟩ := Ide.iderw_ok done
      exact ⟨xs, queue.keep, calls⟩
    · cases done
      exact ⟨xs, queue, calls⟩
  | release p b =>
    obtain ⟨xs, queue, calls⟩ := h
    simp only [Ide.step] at done
    split at done
    · rename_i holds
      have calls := calls.release holds done
      obtain ⟨c, -, done⟩ := bind_ok.mp done
      cases done
      exact ⟨xs, queue.keep, calls⟩
    · cases done
      exact ⟨xs, queue, calls⟩

theorem Ide.Ok.of_reaches (run : Reaches Ide.step (fun _ _ => True)
    (fun s : Ide P D => ∃ data havedisk1, s = .initial data havedisk1) s) : s.Ok := by
  refine run.invariant Ide.Ok ?_ fun s a t h _ done => h.step done
  rintro s ⟨data, havedisk1, rfl⟩
  obtain ⟨ring, bufs⟩ := binit_spec data
  refine ⟨[], ⟨rfl, List.nodup_nil, rfl, rfl, rfl⟩, ring, fun b => ?_, ?_, ?_, ?_, ?_, ?_⟩
  · rw [Ide.initial, bufs b]
    rfl
  all_goals simp [Ide.initial]

end Calls

/-- In every run the command of the disk is for the first buffer of the queue, the buffers are
started and completed once and in the order of appending, and a call of iderw goes on exactly when
its own buffer was completed. Neither the loop of iderw nor an interrupt fails. -/
theorem ide_serves_in_order [DecidableEq P] {s : Ide P D} (run : Reaches Ide.step (fun _ _ => True)
    (fun s : Ide P D => ∃ data havedisk1, s = .initial data havedisk1) s) :
    ∃ xs, Linked s.qnext s.idequeue xs ∧ s.disk.map (·.buf) = s.idequeue ∧
      s.appended = s.completed ++ xs ∧ s.started = s.completed ++ xs.take 1 ∧
      (∀ r ∈ s.returned, s.completed[r.2]? = some r.1) ∧
      (∀ p b k, s.call p = some ⟨b, some k⟩ →
        s.appended[k]? = some b ∧ (s.done b = true ↔ k < s.completed.length)) ∧
      (∀ p, ∃ t, s.step (.run p) = .ok t) ∧
      ∀ read, ∃ t, s.step (.intr read) = .ok t ∧ t.completed = s.completed ++ xs.take 1 := by
  have ok := Ide.Ok.of_reaches run
  obtain ⟨xs, queue, calls⟩ := ok
  refine ⟨xs, queue.linked, queue.active.trans queue.first.symm, queue.appended, queue.started,
    calls.returned,
    calls.slots, fun p => ?_, fun read => ?_⟩
  · obtain ⟨t, done, -⟩ := Ide.Ok.run ⟨xs, queue, calls⟩ p
    exact ⟨t, done⟩
  · obtain ⟨disk, rfl⟩ | ⟨x, ys, t, data, rfl, done, -, -, -, -, -, -, completed⟩ := queue.intr read
    · exact ⟨s, by simp only [Ide.step, disk], by simp⟩
    · exact ⟨t, done, completed⟩

/-- Two processes read a sector each; the second request waits for the first. -/
theorem ide_serves_two_readers : ∃ s : Ide Bool Nat,
    Reaches Ide.step (fun _ _ => True) (fun s : Ide Bool Nat => ∃ data havedisk1,
      s = .initial data havedisk1) s ∧
      s.returned = [(1, 1), (0, 0)] ∧ ∃ xs, s.appended = s.completed ++ xs := by
  have start : Reaches Ide.step (fun _ _ => True)
      (fun s : Ide Bool Nat => ∃ data havedisk1, s = .initial data havedisk1)
        (.initial (fun _ => 0) false) :=
    .start ⟨_, _, rfl⟩
  obtain ⟨s, run, test⟩ := start.exists_of_follow
    [.get true 0 5, .get false 0 6, .iderw true 0, .iderw false 1, .run true, .run false,
      .run false, .intr (some 7), .intr none, .run false, .run true]
    (fun s => s.returned = [(1, 1), (0, 0)]) (by decide +kernel)
  obtain ⟨xs, -, -, appended, -⟩ := ide_serves_in_order run
  exact ⟨s, run, of_decide_eq_true test, xs, appended⟩

end MmapXv6
