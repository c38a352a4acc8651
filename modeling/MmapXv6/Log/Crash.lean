import MmapXv6.Log.Disk

/-! Crash atomicity of the log. A disk is Settled when its header is empty and its
home sectors are those of a given disk, and Committed when its header names a
transaction whose blocks are in the log. Every prefix of a commit's writes leaves
one or the other; a recovery, cut anywhere, keeps the first and completes the second. -/
namespace MmapXv6

open Lib
open Function (update update_of_ne update_self)

variable {L : LogArea} {b : Block} {d v : Disk} {io : BlockIo} {lh : LogHeader}

section Header

theorem word_setSectors_before (b : Block) (i : Nat) (lh : LogHeader) {x : Nat} (h : x ≤ 4 * i) :
    word (setSectors b i lh) x = word b x := by
  induction lh generalizing b i with
  | nil => rfl
  | cons s rest ih =>
    rw [setSectors, ih _ _ (by omega), word_setWord_ne _ _ (by omega)]

theorem word_setSectors (b : Block) (i : Nat) (lh : LogHeader) (uint : ∀ s ∈ lh, s < 2 ^ 32)
    (j : Nat) (h : j < lh.length) : word (setSectors b i lh) (4 + 4 * (i + j)) = lh[j] := by
  induction lh generalizing b i j with
  | nil => cases h
  | cons s rest ih =>
    rw [setSectors]
    cases j with
    | zero =>
      change word (setSectors (setWord b (4 + 4 * i) s) (i + 1) rest) (4 + 4 * i) = s
      rw [word_setSectors_before _ _ _ (by omega), word_setWord _ _ (uint s List.mem_cons_self)]
    | succ j =>
      have shift : i + (j + 1) = (i + 1) + j := by omega
      rw [shift, ih _ _ (fun s hs => uint s (List.mem_cons_of_mem _ hs)) j (by simpa using h)]
      rfl

theorem headCount_headBlock (old : Block) (fits : lh.length ≤ LOGSIZE) :
    headCount (headBlock old lh) = lh.length := by
  have small : lh.length ≤ 30 := fits
  rw [headCount, headBlock, word_setSectors_before _ _ _ (Nat.zero_le _),
    word_setWord _ _ (by omega), toInt_small (by omega)]

theorem readHead_headBlock {old : Block}
    (fits : lh.length ≤ LOGSIZE) (uint : ∀ s ∈ lh, s < 2 ^ 32)
    (head : io.view L.start = headBlock old lh) : readHead L io = .ok lh := by
  unfold readHead BlockIo.bread
  rw [head, headCount_headBlock old fits, if_neg (by omega)]
  congr 1
  refine List.ext_getElem (by simp) (fun j _ hj => ?_)
  simpa [headBlock] using word_setSectors (setWord old 0 lh.length) 0 lh uint j hj

theorem readHead_congr {jo : BlockIo} (same : io.view L.start = jo.view L.start) :
    readHead L io = readHead L jo := by
  unfold readHead BlockIo.bread
  simp only [same]

theorem readHead_empty (empty : headCount (io.view L.start) = 0) :
    readHead L io = .ok [] := by
  unfold readHead BlockIo.bread
  rw [empty]
  rfl

end Header

def homeWrites (L : LogArea) (v : Disk) : Nat → LogHeader → List (Nat × Block)
  | _, [] => []
  | tail, s :: rest => (s, v (L.start + tail + 1)) :: homeWrites L v (tail + 1) rest

def logWrites (L : LogArea) (v : Disk) : Nat → LogHeader → List (Nat × Block)
  | _, [] => []
  | tail, s :: rest => (L.start + tail + 1, v s) :: logWrites L v (tail + 1) rest

theorem homeWrites_congr {w : Disk} (tail : Nat) (lh : LogHeader)
    (same : ∀ i, i < lh.length → v (L.start + (tail + i) + 1) = w (L.start + (tail + i) + 1)) :
    homeWrites L v tail lh = homeWrites L w tail lh := by
  induction lh generalizing tail with
  | nil => rfl
  | cons s rest ih =>
    have here : v (L.start + tail + 1) = w (L.start + tail + 1) := same 0 (by simp)
    rw [homeWrites, homeWrites, here, ih (tail + 1)]
    intro i hi
    have := same (i + 1) (by simpa using hi)
    rwa [show tail + (i + 1) = tail + 1 + i by omega] at this

theorem logWrites_length (L : LogArea) (v : Disk) (tail : Nat) (lh : LogHeader) :
    (logWrites L v tail lh).length = lh.length := by
  induction lh generalizing tail with
  | nil => rfl
  | cons s rest ih => simp [logWrites, ih]

theorem logWrites_bounds {tail : Nat} {w : Nat × Block}
    (h : w ∈ logWrites L v tail lh) : L.start + tail < w.1 ∧ w.1 ≤ L.start + tail + lh.length := by
  induction lh generalizing tail with
  | nil => cases h
  | cons s rest ih =>
    rcases List.mem_cons.mp h with rfl | h
    · simp
    · have := ih h
      simp only [List.length_cons]
      omega

theorem homeWrites_logWrites (L : LogArea) (v d : Disk) (tail : Nat) (lh : LogHeader) :
    homeWrites L (applyWrites d (logWrites L v tail lh)) tail lh = lh.map (fun s => (s, v s)) := by
  induction lh generalizing d tail with
  | nil => rfl
  | cons s rest ih =>
    rw [logWrites, applyWrites, homeWrites, ih, applyWrites_of_not_mem, update_self]
    · rfl
    · intro w hw
      have := logWrites_bounds hw
      omega

section Programs
variable {L : LogArea}

theorem writeLogFrom_writes (tail : Nat) (lh : LogHeader) (io : BlockIo)
    (room : tail + lh.length + 1 ≤ L.size) (outside : ∀ s ∈ lh, ¬ L.Inside s) :
    (writeLogFrom L tail lh io).writes = io.writes ++ logWrites L io.view tail lh := by
  induction lh generalizing tail io with
  | nil => simp [writeLogFrom, logWrites]
  | cons s rest ih =>
    rw [List.length_cons] at room
    have others : ∀ x ∈ rest, ¬ L.Inside x := fun x hx => outside x (List.mem_cons_of_mem s hx)
    have unseen : logWrites L (io.bwrite (L.start + tail + 1) (io.bread s)).view (tail + 1) rest =
        logWrites L io.view (tail + 1) rest := by
      have view : ∀ x ∈ rest, (io.bwrite (L.start + tail + 1) (io.bread s)).view x = io.view x := by
        intro x hx
        have ne : x ≠ L.start + tail + 1 := by
          rintro rfl
          exact others _ hx ⟨by omega, by omega⟩
        simp [BlockIo.bwrite, ne]
      clear ih room outside others
      generalize (io.bwrite (L.start + tail + 1) (io.bread s)).view = w at view
      generalize tail + 1 = j
      induction rest generalizing j with
      | nil => rfl
      | cons y ys ihy =>
        rw [logWrites, logWrites, view y List.mem_cons_self,
          ihy (fun x hx => view x (List.mem_cons_of_mem y hx))]
    rw [writeLogFrom, ih (tail + 1) _ (by omega) others, unseen, logWrites]
    simp [BlockIo.bwrite, BlockIo.bread]

theorem installFrom_writes (tail : Nat) (lh : LogHeader) (io : BlockIo)
    (room : tail + lh.length + 1 ≤ L.size) (outside : ∀ s ∈ lh, ¬ L.Inside s) :
    (installFrom L tail lh io).writes = io.writes ++ homeWrites L io.view tail lh := by
  induction lh generalizing tail io with
  | nil => simp [installFrom, homeWrites]
  | cons s rest ih =>
    rw [List.length_cons] at room
    have unseen : homeWrites L (io.bwrite s (io.bread (L.start + tail + 1))).view (tail + 1) rest =
        homeWrites L io.view (tail + 1) rest := by
      refine homeWrites_congr _ _ (fun i hi => ?_)
      have ne : L.start + (tail + 1 + i) + 1 ≠ s := by
        rintro rfl
        exact outside _ List.mem_cons_self ⟨by omega, by omega⟩
      simp [BlockIo.bwrite, ne]
    rw [installFrom, ih (tail + 1) _ (by omega) (fun x hx => outside x (List.mem_cons_of_mem s hx)),
      unseen, homeWrites]
    simp [BlockIo.bwrite, BlockIo.bread]

/-- Both maps of io are the result of its writes, on the maps it started from. -/
structure Traced (d v : Disk) (io : BlockIo) : Prop where
  disk : io.disk = applyWrites d io.writes
  view : io.view = applyWrites v io.writes

theorem Traced.bwrite (h : Traced d v io) (s : Nat) (b : Block) :
    Traced d v (io.bwrite s b) := by
  constructor
  · simp only [BlockIo.bwrite, applyWrites_append, applyWrites, ← h.disk]
  · simp only [BlockIo.bwrite, applyWrites_append, applyWrites, ← h.view]

theorem Traced.writeLogFrom (tail : Nat) (lh : LogHeader)
    (h : Traced d v io) : Traced d v (writeLogFrom L tail lh io) := by
  induction lh generalizing tail io with
  | nil => exact h
  | cons s rest ih => exact ih (tail + 1) (h.bwrite _ _)

theorem Traced.installFrom (tail : Nat) (lh : LogHeader)
    (h : Traced d v io) : Traced d v (installFrom L tail lh io) := by
  induction lh generalizing tail io with
  | nil => exact h
  | cons s rest ih => exact ih (tail + 1) (h.bwrite _ _)

end Programs

/-- No transaction is pending and every sector outside the log is that of base. -/
structure Settled (L : LogArea) (base e : Disk) : Prop where
  count : headCount (e L.start) = 0
  same : ∀ s, ¬ L.Inside s → e s = base s

/-- The transaction lh with the contents view is in the log and announced. -/
structure Committed (L : LogArea) (lh : LogHeader) (view base e : Disk) : Prop where
  head : readHead L (.cold e) = .ok lh
  blocks : homeWrites L e 0 lh = lh.map (fun s => (s, view s))
  same : ∀ s, ¬ L.Inside s → s ∉ lh → e s = base s

def installed (lh : LogHeader) (view base : Disk) : Disk :=
  fun s => if s ∈ lh then view s else base s

section Recovery
variable {L : LogArea} {lh : LogHeader} {view base e : Disk}

theorem installed_mem {s : Nat} (h : s ∈ lh) : installed lh view base s = view s := if_pos h

theorem installed_not_mem {s : Nat} (h : s ∉ lh) : installed lh view base s = base s := if_neg h

theorem Settled.clear (h : Settled L base e) (size : 1 ≤ L.size) (empty : headCount b = 0)
    (k : Nat) : Settled L base (applyWrites e ([(L.start, b)].take k)) := by
  cases k with
  | zero => exact h
  | succ k =>
    simp only [List.take_succ_cons, List.take_nil, applyWrites]
    refine ⟨by simpa using empty, fun s hs => ?_⟩
    have ne : s ≠ L.start := by rintro rfl; exact hs ⟨Nat.le_refl _, by omega⟩
    rw [update_of_ne ne]
    exact h.same s hs

theorem Committed.partly (txn : Transaction L lh) (h : Committed L lh view base e) (k : Nat) :
    Committed L lh view base (applyWrites e ((lh.map (fun s => (s, view s))).take k)) := by
  have home : ∀ w ∈ (lh.map (fun s => (s, view s))).take k, w.1 ∈ lh := by
    intro w hw
    obtain ⟨s, hs, rfl⟩ := List.mem_map.mp (List.mem_of_mem_take hw)
    exact hs
  have area : ∀ x, L.Inside x →
      applyWrites e ((lh.map (fun s => (s, view s))).take k) x = e x := by
    intro x hx
    refine applyWrites_of_not_mem (fun w hw => ?_) e
    rintro rfl
    exact txn.outside _ (home w hw) hx
  have room := txn.room
  have nonempty := txn.nonempty
  constructor
  · exact (readHead_congr (area L.start ⟨Nat.le_refl _, by omega⟩)).trans h.head
  · exact (homeWrites_congr 0 lh (fun i hi => area _ ⟨by omega, by omega⟩)).trans h.blocks
  · intro s hs hm
    rw [applyWrites_of_not_mem (fun w hw => by rintro rfl; exact hm (home w hw)) e]
    exact h.same s hs hm

theorem Committed.finish (txn : Transaction L lh) (h : Committed L lh view base e)
    (empty : headCount b = 0) :
    Settled L (installed lh view base)
      (applyWrites e (lh.map (fun s => (s, view s)) ++ [(L.start, b)])) := by
  have room := txn.room
  have nonempty := txn.nonempty
  rw [applyWrites_append]
  simp only [applyWrites]
  refine ⟨by simpa using empty, fun s hs => ?_⟩
  have ne : s ≠ L.start := by rintro rfl; exact hs ⟨Nat.le_refl _, by omega⟩
  rw [update_of_ne ne]
  by_cases hm : s ∈ lh
  · rw [installed_mem hm]
    have once : ((lh.map (fun s => (s, view s))).map Prod.fst).Nodup := by
      simpa [Function.comp_def] using txn.distinct
    exact applyWrites_of_mem once (x := s) (v := view s) (List.mem_map.mpr ⟨s, hm, rfl⟩) e
  · rw [installed_not_mem hm, ← h.same s hs hm]
    refine applyWrites_of_not_mem (fun w hw => ?_) e
    obtain ⟨x, hx, rfl⟩ := List.mem_map.mp hw
    rintro rfl
    exact hm hx

/-- The end of a commit and the whole of a recovery issue the same writes, so both are
cut in the same two ways. -/
theorem Committed.cut (txn : Transaction L lh) (h : Committed L lh view base e)
    (empty : headCount b = 0) (k : Nat) :
    Committed L lh view base
        (applyWrites e ((lh.map (fun s => (s, view s)) ++ [(L.start, b)]).take k)) ∨
      Settled L (installed lh view base)
        (applyWrites e ((lh.map (fun s => (s, view s)) ++ [(L.start, b)]).take k)) := by
  by_cases hk : k ≤ lh.length
  · left
    rw [List.take_append_of_le_length (by simpa using hk)]
    exact h.partly txn k
  · right
    rw [List.take_of_length_le (by simp; omega)]
    exact h.finish txn empty

theorem headCount_cleared (b : Block) : headCount (headBlock b []) = 0 :=
  headCount_headBlock b (by decide)

theorem writeHead_nil_writes (io : BlockIo) :
    ∃ b, headCount b = 0 ∧ (writeHead L [] io).writes = io.writes ++ [(L.start, b)] :=
  ⟨_, headCount_cleared (io.bread L.start), rfl⟩

theorem recoverFromLog_ok (head : readHead L (.cold e) = .ok lh) :
    recoverFromLog L (.cold e) = .ok (writeHead L [] (installTrans L lh (.cold e))) := by
  rw [recoverFromLog, head, ok_bind, pure_ok]

theorem recover_writes (head : readHead L (.cold e) = .ok lh) (room : lh.length + 1 ≤ L.size)
    (outside : ∀ s ∈ lh, ¬ L.Inside s) :
    ∃ io b, recoverFromLog L (.cold e) = .ok io ∧ io.disk = applyWrites e io.writes ∧
      headCount b = 0 ∧ io.writes = homeWrites L e 0 lh ++ [(L.start, b)] := by
  have cold : Traced e e (.cold e) := ⟨rfl, rfl⟩
  have traced : Traced e e (writeHead L [] (installTrans L lh (.cold e))) :=
    (cold.installFrom 0 lh).bwrite L.start _
  obtain ⟨b, empty, writes⟩ := writeHead_nil_writes (L := L) (installTrans L lh (.cold e))
  refine ⟨_, b, recoverFromLog_ok head, traced.disk, empty, ?_⟩
  rw [writes, installTrans, installFrom_writes 0 lh (.cold e) (by omega) outside]
  rfl

theorem cutRecovery_ok (h : recoverFromLog L (.cold e) = .ok io) (k : Nat) :
    cutRecovery L e k = .ok (applyWrites e (io.writes.take k)) := by
  rw [cutRecovery, h, ok_bind, pure_ok]

theorem reboots_ok {ks : List Nat} {c : Disk} (cut : ks.foldlM (cutRecovery L) e = .ok c)
    (whole : recoverFromLog L (.cold c) = .ok io) : reboots L e ks = .ok io.disk := by
  rw [reboots, cut, ok_bind, whole, ok_bind, pure_ok]

theorem Settled.recover (size : 1 ≤ L.size) (h : Settled L base e) :
    ∃ io, recoverFromLog L (.cold e) = .ok io ∧ io.disk = applyWrites e io.writes ∧
      ∀ k, Settled L base (applyWrites e (io.writes.take k)) := by
  have head : readHead L (.cold e) = .ok [] := readHead_empty h.count
  obtain ⟨io, b, hio, disk, empty, writes⟩ := recover_writes head (by simpa using size) (by simp)
  refine ⟨io, hio, disk, fun k => ?_⟩
  rw [writes]
  exact h.clear size empty k

theorem Committed.recover (txn : Transaction L lh) (h : Committed L lh view base e) :
    ∃ io, recoverFromLog L (.cold e) = .ok io ∧ io.disk = applyWrites e io.writes ∧
      (∀ k, Committed L lh view base (applyWrites e (io.writes.take k)) ∨
        Settled L (installed lh view base) (applyWrites e (io.writes.take k))) ∧
      Settled L (installed lh view base) io.disk := by
  have room := txn.room
  have nonempty := txn.nonempty
  obtain ⟨io, b, hio, disk, empty, writes⟩ := recover_writes h.head (by omega) txn.outside
  rw [h.blocks] at writes
  refine ⟨io, hio, disk, fun k => ?_, ?_⟩
  · rw [writes]
    exact h.cut txn empty k
  · rw [disk, writes]
    exact h.finish txn empty

theorem Settled.reboots (size : 1 ≤ L.size) (h : Settled L base e) (ks : List Nat) :
    ∃ f, reboots L e ks = .ok f ∧ Settled L base f := by
  obtain ⟨c, hc, settled⟩ := foldlM_keeps (Settled L base) ks (fun d k _ hd => by
    obtain ⟨io, hio, _, cuts⟩ := hd.recover size
    exact ⟨_, cutRecovery_ok hio k, cuts k⟩) e h
  obtain ⟨io, hio, disk, cuts⟩ := settled.recover size
  refine ⟨io.disk, reboots_ok hc hio, ?_⟩
  have whole := cuts io.writes.length
  rwa [List.take_length, ← disk] at whole

theorem Committed.reboots (txn : Transaction L lh) (h : Committed L lh view base e)
    (ks : List Nat) : ∃ f, reboots L e ks = .ok f ∧ Settled L (installed lh view base) f := by
  have size : 1 ≤ L.size := by have := txn.room; have := txn.nonempty; omega
  -- the invariant of the boots: still committed, or complete
  obtain ⟨c, hc, either⟩ := foldlM_keeps
    (fun d => Committed L lh view base d ∨ Settled L (installed lh view base) d) ks
    (fun d k _ hd => by
      rcases hd with hd | hd
      · obtain ⟨io, hio, _, cuts, _⟩ := hd.recover txn
        exact ⟨_, cutRecovery_ok hio k, cuts k⟩
      · obtain ⟨io, hio, _, cuts⟩ := hd.recover size
        exact ⟨_, cutRecovery_ok hio k, .inr (cuts k)⟩) e (.inl h)
  rcases either with committed | settled
  · obtain ⟨io, hio, _, _, done⟩ := committed.recover txn
    exact ⟨io.disk, reboots_ok hc hio, done⟩
  · obtain ⟨io, hio, disk, cuts⟩ := settled.recover size
    refine ⟨io.disk, reboots_ok hc hio, ?_⟩
    have whole := cuts io.writes.length
    rwa [List.take_length, ← disk] at whole

end Recovery

section Commit
variable {L : LogArea} {lh : LogHeader} {view d : Disk}

theorem commit_writes (d view : Disk) (txn : Transaction L lh) :
    ∃ old b, headCount b = 0 ∧ (commit L lh { disk := d, view := view }).writes =
      logWrites L view 0 lh ++
        (L.start, headBlock old lh) :: (lh.map (fun s => (s, view s)) ++ [(L.start, b)]) := by
  have room := txn.room
  have nonempty := txn.nonempty
  have begun : Traced d view { disk := d, view := view } := ⟨rfl, rfl⟩
  have logged : Traced d view (writeLog L lh { disk := d, view := view }) := begun.writeLogFrom 0 lh
  have writes : (writeLog L lh { disk := d, view := view }).writes = logWrites L view 0 lh :=
    writeLogFrom_writes 0 lh _ (by omega) txn.outside
  rw [commit, if_pos (by omega)]
  generalize writeLog L lh { disk := d, view := view } = io at logged writes
  -- the header write does not touch the log blocks that install_trans reads
  have blocks : homeWrites L (writeHead L lh io).view 0 lh = lh.map (fun s => (s, view s)) := by
    rw [← homeWrites_logWrites L view view 0 lh, ← writes, ← logged.view]
    refine homeWrites_congr 0 lh (fun i hi => ?_)
    exact update_of_ne (by omega) _ _
  obtain ⟨b, empty, last⟩ := writeHead_nil_writes (L := L) (installTrans L lh (writeHead L lh io))
  refine ⟨io.bread L.start, b, empty, ?_⟩
  rw [last, installTrans, installFrom_writes 0 lh _ (by omega) txn.outside, blocks]
  simp [writeHead, BlockIo.bwrite, writes]

theorem Settled.cut_log (settled : Settled L d d) (txn : Transaction L lh) (k : Nat) :
    Settled L d (applyWrites d ((logWrites L view 0 lh).take k)) := by
  have room := txn.room
  have bounds : ∀ w ∈ (logWrites L view 0 lh).take k, L.start < w.1 ∧ w.1 < L.start + L.size := by
    intro w hw
    have := logWrites_bounds (List.mem_of_mem_take hw)
    have := txn.nonempty
    omega
  constructor
  · rw [applyWrites_of_not_mem (fun w hw => by have := bounds w hw; omega) d]
    exact settled.count
  · intro s hs
    refine applyWrites_of_not_mem (fun w hw => ?_) d
    rintro rfl
    exact hs ⟨by have := bounds w hw; omega, (bounds w hw).2⟩

theorem committed_of_head (txn : Transaction L lh) (old : Block) :
    Committed L lh view d
      (update (applyWrites d (logWrites L view 0 lh)) L.start (headBlock old lh)) := by
  have room := txn.room
  have nonempty := txn.nonempty
  have head : (BlockIo.cold (update (applyWrites d (logWrites L view 0 lh)) L.start
      (headBlock old lh))).view L.start = headBlock old lh := update_self _ _ _
  refine ⟨readHead_headBlock txn.fits txn.uint head, ?_, fun s hs _ => ?_⟩
  · rw [homeWrites_congr (w := applyWrites d (logWrites L view 0 lh)), homeWrites_logWrites]
    intro i hi
    rw [update_of_ne (by omega)]
  · have ne : s ≠ L.start := by rintro rfl; exact hs ⟨Nat.le_refl _, by omega⟩
    rw [update_of_ne ne]
    refine applyWrites_of_not_mem (fun w hw => ?_) d
    rintro rfl
    have := logWrites_bounds hw
    exact hs ⟨by omega, by omega⟩

/-- Where a power cut leaves the disk of a commit: before the first header write as it
was, from then on with the transaction committed or complete. -/
theorem cutCommit_cases (view : Disk) (txn : Transaction L lh) (clear : headCount (d L.start) = 0)
    (k : Nat) :
    (k ≤ lh.length ∧ Settled L d (cutCommit L lh d view k)) ∨
    (lh.length < k ∧ (Committed L lh view d (cutCommit L lh d view k) ∨
      Settled L (installed lh view d) (cutCommit L lh d view k))) := by
  have len := logWrites_length L view 0 lh
  obtain ⟨old, b, empty, writes⟩ := commit_writes d view txn
  unfold cutCommit
  rw [writes]
  by_cases hk : k ≤ lh.length
  · left
    rw [List.take_append_of_le_length (by omega)]
    exact ⟨hk, Settled.cut_log ⟨clear, fun _ _ => rfl⟩ txn k⟩
  · right
    obtain ⟨m, rfl⟩ : ∃ m, k = lh.length + 1 + m := ⟨k - (lh.length + 1), by omega⟩
    refine ⟨by omega, ?_⟩
    rw [List.take_append, List.take_of_length_le (by omega), len,
      show lh.length + 1 + m - lh.length = m + 1 by omega, List.take_succ_cons, applyWrites_append]
    exact (committed_of_head txn old).cut txn empty m

theorem commit_clears (txn : Transaction L lh) :
    headCount ((commit L lh { disk := d, view := view }).disk L.start) = 0 := by
  have nonempty := txn.nonempty
  rw [commit, if_pos (by omega)]
  simp only [writeHead, BlockIo.bwrite, update_self]
  exact headCount_cleared _

theorem Booted.clear (booted : Booted L d) : headCount (d L.start) = 0 := by
  cases booted with
  | recovered h =>
    rw [reboots, bind_ok] at h
    obtain ⟨c, _, h⟩ := h
    rw [bind_ok] at h
    obtain ⟨io, hio, h⟩ := h
    cases Except.ok.inj h
    rw [recoverFromLog, bind_ok] at hio
    obtain ⟨lh, _, hio⟩ := hio
    cases Except.ok.inj hio
    simp only [writeHead, BlockIo.bwrite, update_self]
    exact headCount_cleared _
  | committed _ txn => exact commit_clears txn

end Commit

/-- A commit on a running system's disk, cut after any number k of its block writes and
followed by any number of recoveries that are cut themselves and one that completes,
ends with all new contents exactly when the first header write, the write after the
blocks of the log, was among the k; otherwise with all old ones. No other sector
outside the log changes and the header ends empty. -/
theorem commit_crash_atomic {L : LogArea} {lh : LogHeader} {d : Disk} (view : Disk)
    (booted : Booted L d) (txn : Transaction L lh) (k : Nat) (ks : List Nat) :
    ∃ e, reboots L (cutCommit L lh d view k) ks = .ok e ∧
      (lh.length + 1 ≤ k → ∀ s ∈ lh, e s = view s) ∧
      (k < lh.length + 1 → ∀ s ∈ lh, e s = d s) ∧
      (∀ s, ¬ L.Inside s → s ∉ lh → e s = d s) ∧
      headCount (e L.start) = 0 := by
  have size : 1 ≤ L.size := by have := txn.room; have := txn.nonempty; omega
  rcases cutCommit_cases view txn booted.clear k with ⟨early, settled⟩ | ⟨late, either⟩
  · obtain ⟨e, he, done⟩ := settled.reboots size ks
    exact ⟨e, he, fun h => absurd h (by omega), fun _ s hs => done.same s (txn.outside s hs),
      fun s hs _ => done.same s hs, done.count⟩
  · have finished : ∃ e, reboots L (cutCommit L lh d view k) ks = .ok e ∧
        Settled L (installed lh view d) e := by
      rcases either with committed | settled
      · exact committed.reboots txn ks
      · exact settled.reboots size ks
    obtain ⟨e, he, done⟩ := finished
    refine ⟨e, he, fun _ s hs => ?_, fun h => absurd h (by omega), fun s hs hm => ?_, done.count⟩
    · rw [done.same s (txn.outside s hs), installed_mem hs]
    · rw [done.same s hs, installed_not_mem hm]

/-- A freshly booted zero disk with the log of mkfs, a commit of sector 7 that loses
power after the header write, and a first recovery that is cut before any write. -/
theorem commit_crash_atomic_fresh :
    ∃ d, Booted ⟨994, 30⟩ d ∧ Transaction ⟨994, 30⟩ [7] ∧
      ∃ e, reboots ⟨994, 30⟩ (cutCommit ⟨994, 30⟩ [7] d (fun _ _ => 9) 2) [0] = .ok e ∧
        ∀ s ∈ [7], e s = fun _ => 9 := by
  have head : readHead ⟨994, 30⟩ (.cold (fun _ _ => 0)) = .ok [] := readHead_empty (by decide)
  have boot : reboots ⟨994, 30⟩ (fun _ _ => 0) [] = .ok _ := reboots_ok rfl (recoverFromLog_ok head)
  have booted := Booted.recovered boot
  have txn : Transaction ⟨994, 30⟩ [7] :=
    ⟨by decide, by decide, by decide, by simp [LogArea.Inside], by decide, by decide⟩
  obtain ⟨e, he, new, _⟩ := commit_crash_atomic (fun _ _ => 9) booted txn 2 [0]
  exact ⟨_, booted, txn, e, he, new (by decide)⟩

end MmapXv6
