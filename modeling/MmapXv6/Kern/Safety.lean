import MmapXv6.Kern.Writes
import MmapXv6.Vm.Layout

/-! Runs of system calls of one process. Between two calls the process holds no lock;
each call gives back what it took. The two ways a fault in the middle of a copy can go
wrong are a wait for an inode that the interrupted call has locked, and a wait while
the interrupted call holds a spinlock. -/
namespace MmapXv6

open Lib

variable {addr st : Nat} {fd : Int} {k : Kern}

structure Ready (k : Kern) : Prop where
  spin : k.spin = []
  busy : k.busy = []

theorem Ready.grown {k' : Kern} (ready : Ready k) (grown : Grown k k') : Ready k' :=
  ⟨grown.spin.trans ready.spin, grown.busy.trans ready.busy⟩

theorem Ready.clear {p q : Prop} (ready : Ready k) (w : Bool) (a : Nat) :
    Clear p q k w k.spin k.busy a :=
  ⟨fun _ _ ip _ _ _ => by simp [ready.busy], fun _ => .inl ready.spin⟩

section Calls
variable {p q : Prop} {k : Kern}

theorem statBytes_offset {ip : Fin NINODE} {b : Nat × UInt8} (member : b ∈ k.statBytes ip) :
    b.1 < 20 := by
  simp only [Kern.statBytes, List.mem_append, List.mem_map, List.mem_range] at member
  rcases member with (((member | member) | member) | member) | member
  all_goals
    obtain ⟨j, below, rfl⟩ := member
    omega

theorem stati_ensures {ip : Fin NINODE}
    (clear : ∀ a, st ≤ a → a < st + 20 → Clear p q k true k.spin k.busy a) :
    Ensures (k.stati ip st) (Grown k) (Fails p q) := by
  apply Ensures.foldlM (Grown k) _ (fun k' b member grown => ?_) (.refl k)
  have inside := statBytes_offset member
  have here : Clear p q k' true k'.spin k'.busy (st + b.1) := by
    rw [grown.spin, grown.busy]
    exact (clear _ (by omega) (by omega)).of_alike grown.toAlike
  exact (put_ensures b.2 here).mono fun _ more => grown.trans more

theorem filestat_ensures {f : Fin NFILE} (ready : Ready k)
    (clear : ∀ ip, (k.vm.fs.file f).type = .inode → (k.vm.fs.file f).ip = some ip →
      ∀ a, st ≤ a → a < st + 20 → Clear p q k true [] [ip] a) :
    Ensures (k.filestat f st) (fun r => Grown k r.2) (Fails p q) := by
  unfold Kern.filestat
  split
  · rename_i ip type found
    apply (ilock_ensures (fun _ => by simp [ready.busy]) fun _ => ready.spin).bind
    intro k₁ h₁
    have locked : Alike k k₁ := h₁.alike ((Alike.refl k).locks k.spin (ip :: k.busy))
    have hs : k₁.spin = [] := h₁.spin.trans ready.spin
    have hb : k₁.busy = [ip] := by rw [h₁.busy, ready.busy]
    have here : ∀ a, st ≤ a → a < st + 20 → Clear p q k₁ true k₁.spin k₁.busy a := by
      rw [hs, hb]
      exact fun a low high => (clear ip type found a low high).of_alike locked
    apply (stati_ensures here).bind
    intro k₂ h₂
    apply (iunlock_ensures ip k₂).bind
    rintro _ rfl
    refine ⟨(locked.trans h₂.toAlike).locks k₂.spin _, ?_, ?_⟩
    · rw [h₂.spin, hs, ready.spin]
    · rw [h₂.busy, hb, ready.busy, List.erase_cons_head]
  · exact ⟨fun _ => by decide, fun _ => by decide⟩
  · exact .refl k

theorem fetchstr_ensures (n : Nat) {a len : Nat} (ready : Ready k) :
    Ensures (Kern.fetchstr n k a len) (fun r => Grown k r.2 ∧ ∀ m, r.1 = some m → ∀ b, a ≤ b →
      b + len ≤ a + m → (r.2.vm.admits b false false).isSome) (Fails p q) := by
  induction n generalizing a len k with
  | zero => exact ⟨.refl k, fun m found => nomatch found⟩
  | succ n ih =>
    apply (get_ensures (ready.clear false a)).bind
    rintro ⟨c, k₁⟩ ⟨grown, there⟩
    dsimp only at grown there ⊢
    split
    · refine ⟨grown, fun m found b low high => ?_⟩
      cases found
      rw [show b = a by omega]
      exact there
    · apply (ih (ready.grown grown)).mono
      rintro r ⟨more, resident⟩
      refine ⟨grown.trans more, fun m found b low high => ?_⟩
      by_cases first : b = a
      · subst first
        exact more.pages b false there
      · exact resident m found b (by omega) (by omega)

theorem namexStep_ensures {path len : Nat} {dp : Fin NINODE} (ready : Ready k)
    (resident : ∀ b, path ≤ b → b ≤ path + len → (k.vm.admits b false false).isSome) :
    Ensures (k.namexStep path len dp) (Grown k) (Fails p q) := by
  apply (ilock_ensures (fun _ => by simp [ready.busy]) fun _ => ready.spin).bind
  intro k₁ h₁
  have locked : Alike k k₁ := h₁.alike ((Alike.refl k).locks k.spin (dp :: k.busy))
  have hs : k₁.spin = [] := h₁.spin.trans ready.spin
  have hb : k₁.busy = [dp] := by rw [h₁.busy, ready.busy]
  apply (useBlock_ensures fun _ => hs).bind
  intro k₂ h₂
  have read := locked.trans h₂.grown.toAlike
  have clear : ∀ a, path ≤ a → a < path + (len + 1) → Clear p q k false [] [dp] a :=
    fun a low high => .of_admits (resident a low (by omega))
  apply (copyIn_ensures (le_refl _) (le_refl _) clear read (h₂.spin.trans hs)
    (h₂.busy.trans hb)).bind
  rintro ⟨_, k₃⟩ h₃
  apply (iunlock_ensures dp k₃).mono
  rintro _ rfl
  refine ⟨(read.trans h₃.toAlike).locks k₃.spin _, ?_, ?_⟩
  · rw [h₃.spin, h₂.spin, hs, ready.spin]
  · rw [h₃.busy, h₂.busy, hb, ready.busy, List.erase_cons_head]

theorem sysOpen_ensures {path : Nat} {dirs : List (Fin NINODE)} {fd : Fin NOFILE} {f : Fin NFILE}
    {fs : Fs} (ready : Ready k) : Ensures (k.sysOpen path dirs fd f fs) Ready (Fails p q) := by
  apply (fetchstr_ensures _ ready).bind
  rintro ⟨_ | len, k₁⟩ ⟨grown, resident⟩
  · exact ready.grown grown
  have ready₁ := ready.grown grown
  apply (beginOp_ensures fun _ => ready₁.spin).bind
  intro k₂ h₂
  have walk : Ensures (dirs.foldlM (Kern.namexStep path len) k₂) (Grown k₂) (Fails p q) := by
    apply Ensures.foldlM (Grown k₂) _ (fun k' dp _ more => ?_) (.refl k₂)
    have here := h₂.grown.trans more
    apply (namexStep_ensures (ready₁.grown here) fun b low high =>
      here.pages b false (resident len rfl b low (by omega))).mono
    intro _ next
    exact more.trans next
  apply walk.bind
  intro k₃ h₃
  have ready₃ := ready₁.grown (h₂.grown.trans h₃)
  apply (endOp_ensures fun _ => ready₃.spin).bind
  intro k₄ h₄
  exact ⟨h₄.spin.trans ready₃.spin, h₄.busy.trans ready₃.busy⟩

theorem putWord_ensures {w : Nat} (ready : Ready k) :
    Ensures (k.putWord addr w) (Grown k) (Fails p q) := by
  apply Ensures.foldlM (Grown k) _ (fun k' b _ grown => ?_) (.refl k)
  exact (put_ensures b.2 ((ready.grown grown).clear true b.1)).mono fun _ more => grown.trans more

theorem sysPipe_ensures {fd : Nat} {fds : Nat × Nat} {ofile : Fin NOFILE → Option (Fin NFILE)}
    {fs : Fs} (ready : Ready k) : Ensures (k.sysPipe fd fds ofile fs) Ready (Fails p q) := by
  unfold Kern.sysPipe
  split
  · have made : Ready { k with vm := { k.vm with fs := fs, proc :=
      { k.vm.proc with ofile := ofile } } } :=
      ⟨ready.spin, ready.busy⟩
    apply (putWord_ensures made).bind
    intro k₁ grown
    have ready₁ := made.grown grown
    exact (putWord_ensures ready₁).mono fun _ more => ready₁.grown more
  · exact ready

theorem sysMmap_ensures (ready : Ready k) :
    Ensures (k.sysMmap fd addr) Ready (Fails p q) := by
  unfold Kern.sysMmap
  split
  · exact ready
  · split
    · exact ready
    · split
      · exact ⟨fun _ => by decide, fun _ => by decide⟩
      · have mapped : ∀ vm, Ready { k with vm := vm } := fun _ => ⟨ready.spin, ready.busy⟩
        exact (putWord_ensures (mapped _)).mono fun _ grown => (mapped _).grown grown

end Calls

/-- The user bytes that a call copies while it holds locks, and these locks. -/
structure Copied where
  write : Bool
  addr : Nat
  count : Nat
  spin : List Spinlock
  busy : List (Fin NINODE)

def Kern.copied (k : Kern) : KernCall → Option Copied
  | .read fd p n => (openFile k.vm.proc fd).bind fun f =>
    match (k.vm.fs.file f).type, (k.vm.fs.file f).ip with
    | .pipe, _ => some ⟨true, p, n.toNat, [.pipe (k.pipeOf f)], []⟩
    | .inode, some ip =>
      let count := (n % 2 ^ 32).toNat
      if (k.vm.fs.inode ip).type = .dev then some ⟨true, p, (Lib.toInt count).toNat, [.input], []⟩
      else some ⟨true, p, readCount (k.vm.fs.inode ip) (k.vm.fs.file f).off count, [], [ip]⟩
    | _, _ => none
  | .write fd p n => (openFile k.vm.proc fd).bind fun f =>
    match (k.vm.fs.file f).type, (k.vm.fs.file f).ip with
    | .pipe, _ => some ⟨false, p, n.toNat, [.pipe (k.pipeOf f)], []⟩
    | .inode, some ip =>
      if (k.vm.fs.inode ip).type = .dev then some ⟨false, p, n.toNat, [.cons], []⟩
      else some ⟨false, p, n.toNat, [], [ip]⟩
    | _, _ => none
  | .fstat fd st => (openFile k.vm.proc fd).bind fun f =>
    match (k.vm.fs.file f).type, (k.vm.fs.file f).ip with
    | .inode, some ip => some ⟨true, st, 20, [], [ip]⟩
    | _, _ => none
  | _ => none

/-- No byte of the copy is in a page that the handler loads from a locked inode. -/
def Copied.Apart (k : Kern) (c : Copied) : Prop :=
  ∀ a, c.addr ≤ a → a < c.addr + c.count → ∀ g ip, k.loads a c.write = some g →
    (k.vm.fs.file g).type = .inode → (k.vm.fs.file g).ip = some ip → ip ∉ c.busy

/-- No byte of a copy under a spinlock is in a page that the handler loads from a file.
The lock of the console is no danger: the handler stops when it prints. -/
def Copied.NoWait (k : Kern) (c : Copied) : Prop :=
  ∀ a, c.addr ≤ a → a < c.addr + c.count →
    c.spin = [] ∨ .cons ∈ c.spin ∨ k.loads a c.write = none

def CopiesApart (k : Kern) (call : KernCall × List (Option World)) : Prop :=
  ∀ c, k.copied call.1 = some c → c.Apart k

def CopiesNoWait (k : Kern) (call : KernCall × List (Option World)) : Prop :=
  ∀ c, k.copied call.1 = some c → c.NoWait k

section Steps
variable {p q : Prop} {k : Kern}

theorem Copied.clear {c : Copied} (apart : p → c.Apart k) (noWait : q → c.NoWait k) (a : Nat)
    (low : c.addr ≤ a) (high : a < c.addr + c.count) : Clear p q k c.write c.spin c.busy a :=
  ⟨fun hp => apart hp a low high, fun hq => noWait hq a low high⟩

theorem sysRead_ensures {n : Int} (ready : Ready k)
    (clear : ∀ c, k.copied (.read fd addr n) = some c → ∀ a, c.addr ≤ a → a < c.addr + c.count →
      Clear p q k c.write c.spin c.busy a) : Ensures (k.sysRead fd addr n) Ready (Fails p q) := by
  unfold Kern.sysRead
  split
  · exact ready
  · rename_i f found
    split
    · have copier : FileCopier Kern.put k f addr n (Fails p q) := by
        constructor
        · intro type
          rw [ready.spin, ready.busy]
          exact put_copier (clear ⟨true, addr, n.toNat, [.pipe (k.pipeOf f)], []⟩
            (by simp [Kern.copied, found, type]))
        · intro ip type file dev _
          rw [ready.spin, ready.busy]
          exact put_copier (clear ⟨true, addr, (Lib.toInt (n % 2 ^ 32).toNat).toNat, [.input], []⟩
            (by simp [Kern.copied, found, type, file, dev]))
        · intro ip type file dev
          rw [ready.spin, ready.busy]
          exact put_copier (clear ⟨true, addr, readCount (k.vm.fs.inode ip) (k.vm.fs.file f).off
            (n % 2 ^ 32).toNat,
            [], [ip]⟩
            (by simp [Kern.copied, found, type, file, dev]))
      apply (fileread_ensures (fun _ _ _ _ => by simp [ready.busy])
        (fun _ => ready.spin) copier).bind
      intro r grown
      exact ready.grown grown
    · exact ready

theorem sysWrite_ensures {n : Int} (ready : Ready k)
    (clear : ∀ c, k.copied (.write fd addr n) = some c → ∀ a, c.addr ≤ a → a < c.addr + c.count →
      Clear p q k c.write c.spin c.busy a) : Ensures (k.sysWrite fd addr n) Ready (Fails p q) := by
  unfold Kern.sysWrite
  split
  · exact ready
  · rename_i f found
    split
    · have source : FileSource p q k f addr n.toNat := by
        constructor
        · intro type
          rw [ready.spin, ready.busy]
          exact clear ⟨false, addr, n.toNat, [.pipe (k.pipeOf f)], []⟩
            (by simp [Kern.copied, found, type])
        · intro ip type file dev
          rw [ready.spin, ready.busy]
          exact clear ⟨false, addr, n.toNat, [.cons], []⟩
            (by simp [Kern.copied, found, type, file, dev])
        · intro ip type file dev
          rw [ready.spin, ready.busy]
          exact clear ⟨false, addr, n.toNat, [], [ip]⟩
            (by simp [Kern.copied, found, type, file, dev])
      apply (filewrite_ensures (fun _ _ _ _ => by simp [ready.busy])
        (fun _ => ready.spin) source).bind
      intro r grown
      exact ready.grown grown
    · exact ready

theorem sysFstat_ensures (ready : Ready k)
    (clear : ∀ c, k.copied (.fstat fd st) = some c → ∀ a, c.addr ≤ a → a < c.addr + c.count →
      Clear p q k c.write c.spin c.busy a) : Ensures (k.sysFstat fd st) Ready (Fails p q) := by
  unfold Kern.sysFstat
  split
  · exact ready
  · rename_i f found
    split
    · apply (filestat_ensures ready fun ip type file => ?_).bind
      · intro r grown
        exact ready.grown grown
      · exact clear ⟨true, st, 20, [], [ip]⟩ (by simp [Kern.copied, found, type, file])
    · exact ready

/-- Every call ends with no lock held, and the two failures need a copy that is entangled
with its own locks. -/
theorem step_ensures (ready : Ready k) (call : KernCall × List (Option World)) :
    Ensures (k.step call) Ready (Fails (CopiesApart k call) (CopiesNoWait k call)) := by
  have start : Ready { k with waits := call.2 } := ⟨ready.spin, ready.busy⟩
  have clear : ∀ c, k.copied call.1 = some c → ∀ a, c.addr ≤ a → a < c.addr + c.count →
      Clear (CopiesApart k call) (CopiesNoWait k call) k c.write c.spin c.busy a :=
    fun c copied => Copied.clear (fun apart => apart c copied) fun noWait => noWait c copied
  have same (a : Nat) (w : Bool) (spin : List Spinlock) (busy : List (Fin NINODE))
      (h : Clear (CopiesApart k call) (CopiesNoWait k call) k w spin busy a) :
      Clear (CopiesApart k call) (CopiesNoWait k call) { k with waits := call.2 } w spin busy a :=
    h.of_alike ⟨rfl, fun _ => rfl, fun _ => rfl, fun _ _ h => h, rfl, rfl⟩
  obtain ⟨call, waits⟩ := call
  cases call with
  | openPath path dirs fd f fs => exact sysOpen_ensures start
  | pipe fd fds ofile fs => exact sysPipe_ensures start
  | mmap fd addr => exact sysMmap_ensures start
  | read fd addr n =>
    exact sysRead_ensures start fun c copied a low high => same _ _ _ _ (clear c copied a low high)
  | write fd addr n =>
    exact sysWrite_ensures start fun c copied a low high => same _ _ _ _ (clear c copied a low high)
  | fstat fd st =>
    exact sysFstat_ensures start fun c copied a low high => same _ _ _ _ (clear c copied a low high)

theorem ready_invariant {allowed : Kern → KernCall × List (Option World) → Prop}
    (run : Reaches Kern.step allowed Ready k) : Ready k := by
  apply run.invariant Ready (fun _ ready => ready)
  intro k call k' ready _ done
  exact (step_ensures ready call).of_ok done

end Steps

def sessionFs : Fs where
  inode := image.fs.inode
  file := fun f =>
    if f = 1 then ⟨.pipe, true, false, none, 0⟩
    else if f = 2 then ⟨.pipe, false, true, none, 0⟩
    else image.fs.file f

def sessionOfile (fd : Fin NOFILE) : Option (Fin NFILE) :=
  if fd = 0 then some 0 else if fd = 1 then some 1 else if fd = 2 then some 2 else none

/-- The process of image with its file mapped at 0xA000 and not loaded, and a pipe that
holds one byte: descriptor 1 reads it, descriptor 2 writes it. -/
def session : Kern where
  vm :=
    { proc := { (image.addMmap 0 0 100).proc with ofile := sessionOfile }
      kmem := image.kmem
      fs := sessionFs }
  world := { pipe := fun _ => { nwrite := 1 } }

def Kern.stops (k : Kern) (call : KernCall × List (Option World)) (e : Panic) : Bool :=
  match k.step call with
  | .error e' => e' == e
  | .ok _ => false

theorem Kern.stops_iff {call : KernCall × List (Option World)} {e : Panic} :
    k.stops call e = true ↔ k.step call = .error e := by
  unfold Kern.stops
  split
  · rename_i e' failed
    simp [failed]
  · rename_i k' returned
    simp [returned]

theorem session_window {a : Nat} (low : 0x2000 ≤ a) (high : a < 0xA000) (w : Bool) :
    session.loads a w = none :=
  if_pos (.inr ⟨low, high⟩)

end MmapXv6
