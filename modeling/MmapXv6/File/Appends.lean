import MmapXv6.File.Writers
import Mathlib.Algebra.Order.BigOperators.Group.Finset

/-! Nothing that is written through a shared struct file is lost, as long as the log has
room for the pieces that are under way together. The offset is at the end of the file
whenever the inode is not locked, so the file is the old content and the pieces in the
order in which their writers had the lock. The log has the sectors of the blocks that
these pieces touch, those of the bitmap and of the inode, and the indirect block. -/
namespace MmapXv6

open Lib (pieces Reaches)
open Function

namespace FileLog
variable {d : FileLog} {S : List Nat} {size lo hi : Nat}

structure Inside (d : FileLog) (S : List Nat) : Prop where
  nodup : d.lh.Nodup
  sub : d.lh ⊆ S
  few : S.length < LOGSIZE - 1
  begun : 1 ≤ d.outstanding

theorem Inside.logWrite {x : Nat} (h : d.Inside S) (mem : x ∈ S) :
    ∃ lh, d.logWrite x = .ok { d with lh := lh } ∧ Inside { d with lh := lh } S := by
  have length := (List.subperm_of_subset h.nodup h.sub).length_le
  have few := h.few
  have begun := h.begun
  refine ⟨if x ∈ d.lh then d.lh else d.lh ++ [x],
    by rw [FileLog.logWrite, if_neg (by omega), if_neg (by omega)], ?_, ?_, few, begun⟩
  · dsimp only
    split
    · exact h.nodup
    · rename_i new
      exact h.nodup.append (List.nodup_singleton x) (by simpa using new)
  · dsimp only
    split
    · exact h.sub
    · exact List.append_subset.mpr ⟨h.sub, by simpa using mem⟩

theorem Inside.balloc {b : Nat} {free : List Nat} (h : d.Inside S) (blocks : d.free = b :: free)
    (map : d.bitmap ∈ S) (new : b ∈ S) :
    ∃ lh, d.balloc = .ok (b, { d with free := free, lh := lh }) ∧
      Inside { d with free := free, lh := lh } S := by
  obtain ⟨lh, marked, h⟩ :=
    Inside.logWrite (d := { d with free := free }) ⟨h.nodup, h.sub, h.few, h.begun⟩ map
  obtain ⟨lh, zeroed, h⟩ := h.logWrite new
  refine ⟨lh, ?_, h⟩
  rw [FileLog.balloc, blocks]
  dsimp only
  rw [marked]
  exact congrArg (· >>= fun d => Except.ok (b, d)) zeroed

/-- The sectors that writes to the blocks from lo to hi can log. -/
def sectors (d : FileLog) (lo hi : Nat) : List Nat :=
  d.bitmap :: d.inode :: (d.indirect.toList ++ (List.range' lo (hi - lo)).filterMap d.addrs)

theorem mem_sectors {x : Nat} : x ∈ d.sectors lo hi ↔ x = d.bitmap ∨ x = d.inode ∨
    d.indirect = some x ∨ ∃ bn, (lo ≤ bn ∧ bn < hi) ∧ d.addrs bn = some x := by
  have range (bn : Nat) : lo ≤ bn ∧ bn < lo + (hi - lo) ↔ lo ≤ bn ∧ bn < hi := by omega
  simp [sectors, List.mem_range'_1, range]

theorem sectors_length (small : hi ≤ lo + 25) : (d.sectors lo hi).length < LOGSIZE - 1 := by
  have data := List.length_filterMap_le d.addrs (List.range' lo (hi - lo))
  rw [List.length_range'] at data
  have one : d.indirect.toList.length ≤ 1 := by cases d.indirect <;> simp
  simp only [sectors, List.length_cons, List.length_append, LOGSIZE, MAXOPBLOCKS]
  omega

theorem missing_entry {bn a : Nat} (hole : d.addrs bn = none) (inside : bn * BSIZE < size) :
    missing { d with addrs := update d.addrs bn (some a) } size + 1 = d.missing size := by
  have erased : ((Finset.range ((size + BSIZE - 1) / BSIZE)).filter
      fun k => update d.addrs bn (some a) k = none) =
      ((Finset.range ((size + BSIZE - 1) / BSIZE)).filter fun k => d.addrs k = none).erase bn := by
    ext k
    by_cases here : k = bn
    · simp [here]
    · simp [here]
  have mem : bn ∈ (Finset.range ((size + BSIZE - 1) / BSIZE)).filter fun k => d.addrs k = none := by
    simp only [BSIZE] at inside ⊢
    exact Finset.mem_filter.mpr ⟨Finset.mem_range.mpr (by omega), hole⟩
  have count := Finset.card_erase_add_one mem
  simp only [missing, erased]
  omega

/-- What a transaction keeps of the log while it writes to the blocks from lo to hi of a
file that gets size bytes at most. -/
structure Kept (d : FileLog) (size lo hi : Nat) : Prop where
  nodup : d.lh.Nodup
  sub : d.lh ⊆ d.sectors lo hi
  room : d.missing size ≤ d.free.length

section Piece
variable (small : hi ≤ lo + 25)
include small

theorem Kept.logWrite {x : Nat} (h : d.Kept size lo hi) (begun : 1 ≤ d.outstanding)
    (mem : x ∈ d.sectors lo hi) :
    ∃ lh, d.logWrite x = .ok { d with lh := lh } ∧ Kept { d with lh := lh } size lo hi := by
  obtain ⟨lh, done, inside⟩ := Inside.logWrite ⟨h.nodup, h.sub, sectors_length small, begun⟩ mem
  exact ⟨lh, done, inside.nodup, inside.sub, h.room⟩

theorem Kept.indirectBlock (h : d.Kept size lo hi) (begun : 1 ≤ d.outstanding)
    (big : NDIRECT * BSIZE < size) :
    ∃ i e, d.indirectBlock = .ok (i, e) ∧ e.Kept size lo hi ∧ e.outstanding = d.outstanding ∧
      e.indirect = some i ∧ e.addrs = d.addrs := by
  unfold FileLog.indirectBlock
  cases here : d.indirect with
  | some i => exact ⟨i, d, rfl, h, rfl, here, rfl⟩
  | none =>
    have room := h.room
    rw [missing, if_pos ⟨here, big⟩] at room
    obtain ⟨i, free, blocks⟩ := List.exists_cons_of_length_pos (by omega : 0 < d.free.length)
    have sub : d.sectors lo hi ⊆ sectors { d with indirect := some i } lo hi := by
      intro x mem
      simp only [mem_sectors, here] at mem ⊢
      tauto
    obtain ⟨lh, done, inside⟩ := Inside.balloc (S := sectors { d with indirect := some i } lo hi)
      ⟨h.nodup, fun _ mem => sub (h.sub mem), sectors_length small, begun⟩ blocks
      (mem_sectors.mpr (.inl rfl)) (mem_sectors.mpr (.inr (.inr (.inl rfl))))
    refine ⟨i, { d with free := free, lh := lh, indirect := some i }, by dsimp only; rw [done]; rfl,
      ⟨inside.nodup, inside.sub, ?_⟩, rfl, rfl, rfl⟩
    rw [blocks, List.length_cons] at room
    rw [missing, if_neg (fun h => Option.some_ne_none _ h.1)]
    exact Nat.le_of_succ_le_succ room

theorem Kept.entry {bn : Nat} (h : d.Kept size lo hi) (begun : 1 ≤ d.outstanding)
    (hole : d.addrs bn = none) (range : lo ≤ bn ∧ bn < hi) (inside : bn * BSIZE < size) :
    ∃ a free lh, d.balloc = .ok (a, { d with free := free, lh := lh }) ∧
      Kept { d with free := free, lh := lh, addrs := update d.addrs bn (some a) } size lo hi := by
  have room := h.room
  have less := missing_entry (a := 0) hole inside
  obtain ⟨a, free, blocks⟩ := List.exists_cons_of_length_pos (by omega : 0 < d.free.length)
  have sub : d.sectors lo hi ⊆
      sectors { d with addrs := update d.addrs bn (some a) } lo hi := by
    intro x mem
    rw [mem_sectors] at mem ⊢
    rcases mem with map | inode | ind | ⟨k, range, old⟩
    · exact .inl map
    · exact .inr (.inl inode)
    · exact .inr (.inr (.inl ind))
    · have other : k ≠ bn := by rintro rfl; simp [hole] at old
      exact .inr (.inr (.inr ⟨k, range, (update_of_ne other _ _).trans old⟩))
  obtain ⟨lh, done, inside'⟩ := Inside.balloc
    (S := sectors { d with addrs := update d.addrs bn (some a) } lo hi)
    ⟨h.nodup, fun _ mem => sub (h.sub mem), sectors_length small, begun⟩ blocks
    (mem_sectors.mpr (.inl rfl))
    (mem_sectors.mpr (.inr (.inr (.inr ⟨bn, range, update_self _ _ _⟩))))
  refine ⟨a, free, lh, done, inside'.nodup, inside'.sub, ?_⟩
  have less := missing_entry (a := a) hole inside
  rw [blocks, List.length_cons] at room
  simp only [missing] at less room ⊢
  omega

theorem Kept.bmap (bn : Nat) (h : d.Kept size lo hi) (begun : 1 ≤ d.outstanding)
    (range : lo ≤ bn ∧ bn < hi) (inside : bn * BSIZE < size) (file : bn < MAXFILE) :
    ∃ a e, d.bmap bn = .ok (a, e) ∧ e.Kept size lo hi ∧ e.outstanding = d.outstanding ∧
      e.addrs bn = some a := by
  unfold FileLog.bmap
  by_cases direct : bn < NDIRECT
  · rw [if_pos direct]
    cases here : d.addrs bn with
    | some a => exact ⟨a, d, rfl, h, rfl, here⟩
    | none =>
      obtain ⟨a, free, lh, done, kept⟩ := h.entry small begun here range inside
      exact ⟨a, _, by dsimp only; rw [done]; rfl, kept, rfl, update_self _ _ _⟩
  · have big : NDIRECT * BSIZE < size :=
      Nat.lt_of_le_of_lt (Nat.mul_le_mul_right _ (Nat.not_lt.mp direct)) inside
    obtain ⟨i, e, indirect, kept, same, block, addrs⟩ := h.indirectBlock small begun big
    rw [← same] at begun ⊢
    rw [if_neg direct, if_pos file, indirect]
    dsimp only [bind, Except.bind]
    cases here : e.addrs bn with
    | some a => exact ⟨a, e, rfl, kept, rfl, here⟩
    | none =>
      obtain ⟨a, free, lh, done, kept⟩ := kept.entry small begun here range inside
      obtain ⟨lh, logged, kept⟩ :=
        kept.logWrite small begun (mem_sectors.mpr (.inr (.inr (.inl block))))
      refine ⟨a, _, ?_, kept, rfl, update_self _ _ _⟩
      dsimp only
      rw [done]
      exact congrArg (· >>= fun d => Except.ok (a, d)) logged

theorem Kept.writeiLoop {n fuel off tot : Nat} (h : d.Kept size lo hi) (begun : 1 ≤ d.outstanding)
    (enough : n - tot < fuel) (low : lo ≤ off / BSIZE) (high : off + (n - tot) ≤ hi * BSIZE)
    (inside : off + (n - tot) ≤ size) (file : size ≤ MAXFILE * BSIZE) :
    ∃ e, FileLog.writeiLoop n fuel d off tot = .ok e ∧ e.Kept size lo hi ∧
      e.outstanding = d.outstanding := by
  induction fuel generalizing d off tot with
  | zero => omega
  | succ fuel ih =>
    unfold FileLog.writeiLoop
    by_cases more : tot < n
    · rw [if_pos more]
      have block := Nat.div_add_mod off BSIZE
      have rest : off % BSIZE < BSIZE := Nat.mod_lt _ (by decide)
      simp only [MAXFILE, NDIRECT, NINDIRECT, BSIZE] at *
      obtain ⟨a, e, done, kept, same, entry⟩ := h.bmap small (off / 512) begun
        ⟨low, by omega⟩ (by simp only [BSIZE]; omega)
        (by simp only [MAXFILE, NDIRECT, NINDIRECT, BSIZE]; omega)
      rw [← same] at begun ⊢
      obtain ⟨lh, logged, kept⟩ := kept.logWrite small begun
        (mem_sectors.mpr (.inr (.inr (.inr ⟨off / 512, ⟨low, by omega⟩, entry⟩))))
      rw [done]
      dsimp only [bind, Except.bind]
      rw [logged]
      exact ih kept begun (by omega) (by omega) (by omega) (by omega)
    · rw [if_neg more]
      exact ⟨d, rfl, h, rfl⟩

theorem Kept.writei (old off n : Nat) (h : d.Kept size lo hi) (begun : 1 ≤ d.outstanding)
    (low : lo ≤ off / BSIZE) (high : off + n ≤ hi * BSIZE) (inside : off + n ≤ size)
    (file : size ≤ MAXFILE * BSIZE) :
    ∃ e, d.writei old off n = .ok e ∧ e.Kept size lo hi ∧ e.outstanding = d.outstanding := by
  have enough : n - 0 < n + 1 := by omega
  obtain ⟨e, done, kept, same⟩ := h.writeiLoop small begun enough low high inside file
  rw [FileLog.writei, done]
  dsimp only [bind, Except.bind]
  split
  · obtain ⟨lh, logged, kept⟩ :=
      kept.logWrite small (same ▸ begun) (mem_sectors.mpr (.inr (.inl rfl)))
    exact ⟨_, logged, kept, same⟩
  · exact ⟨e, rfl, kept, same⟩

end Piece

theorem Kept.mono {hi' : Nat} (h : d.Kept size lo hi) (le : hi ≤ hi') : d.Kept size lo hi' := by
  refine ⟨h.nodup, fun x mem => ?_, h.room⟩
  have old := h.sub mem
  rw [mem_sectors] at old ⊢
  exact old.imp_right (.imp_right (.imp_right fun ⟨bn, range, at_⟩ => ⟨bn, by omega, at_⟩))

end FileLog

namespace WritePc

def Placed (n k : Nat) : WritePc → Prop
  | idle => k = 0
  | loop i => i = min (k * filewriteMax) n
  | begun i => i = k * filewriteMax ∧ i < n
  | unlocked i r => i + filewriteMax = k * filewriteMax ∧ i < n ∧ r = filewriteN1 n i

def behind (n : Nat) : WritePc → Nat
  | idle => 0
  | loop i | begun i => n - i
  | unlocked i _ => n - i - filewriteN1 n i

/-- Those of a piece that has begun and is not written. -/
def pending (n : Nat) : WritePc → Nat
  | begun i => filewriteN1 n i
  | _ => 0

def ops (_ : Nat) : WritePc → Nat
  | begun _ | unlocked _ _ => 1
  | _ => 0

/-- A bound on the steps that a call has still to make. -/
def work (n : Nat) : WritePc → Nat
  | idle => 0
  | loop i => 3 * (n - i) + 1
  | begun i => 3 * (n - i)
  | unlocked i _ => 3 * (n - i) - 1

end WritePc

section Invariant
variable {P : Type} [DecidableEq P] {s t : Writers P} {p : P}

/-- The pieces of one process, in the order in which they were written. -/
def Writers.piecesOf (s : Writers P) (p : P) : List (List UInt8) :=
  (s.order.filter fun c => c.1 = p).map Prod.snd

theorem Writers.piecesOf_append {piece : List UInt8} (order : t.order = s.order ++ [(p, piece)])
    (q : P) : t.piecesOf q = s.piecesOf q ++ if q = p then [piece] else [] := by
  unfold Writers.piecesOf
  rw [order, List.filter_append, List.map_append]
  by_cases here : q = p
  · simp [here]
  · simp [here, Ne.symm here]

structure OwnInv (s : Writers P) (p : P) : Prop where
  pieces : ∃ k, (s.pc p).Placed (s.buf p).length k ∧
    s.piecesOf p = (s.calls p).flatMap (pieces filewriteMax) ++
    (pieces filewriteMax (s.buf p)).take k
  returned : s.returned p = (s.calls p).map fun b => (b.length : Int)

def Writers.Elsewhere (s t : Writers P) (p : P) : Prop :=
  ∀ q, q ≠ p → t.pc q = s.pc q ∧ t.buf q = s.buf q ∧ t.piecesOf q = s.piecesOf q ∧
    t.calls q = s.calls q ∧ t.returned q = s.returned q

theorem Writers.elsewhere {c : WritePc} (pc : t.pc = update s.pc p c) (buf : t.buf = s.buf)
    (order : t.order = s.order) (calls : t.calls = s.calls) (returned : t.returned = s.returned) :
    s.Elsewhere t p := fun q ne =>
  ⟨by rw [pc, update_of_ne ne], congrFun buf q, by rw [piecesOf, order]; rfl, congrFun calls q,
    congrFun returned q⟩

variable [Fintype P]

def Writers.sum (s : Writers P) (f : Nat → WritePc → Nat) : Nat := ∑ q, f (s.buf q).length (s.pc q)

def Writers.work (s : Writers P) : Nat := s.sum WritePc.work

theorem Writers.Elsewhere.sum (h : s.Elsewhere t p) (f : Nat → WritePc → Nat) :
    t.sum f + f (s.buf p).length (s.pc p) = s.sum f + f (t.buf p).length (t.pc p) := by
  have moved : (fun q => f (t.buf q).length (t.pc q)) =
      update (fun q => f (s.buf q).length (s.pc q)) p (f (t.buf p).length (t.pc p)) :=
    eq_update_iff.mpr ⟨rfl, fun q ne => by rw [(h q ne).1, (h q ne).2.1]⟩
  unfold Writers.sum
  rw [moved]
  exact Lib.sum_update _ _ _

omit [DecidableEq P] in
theorem Writers.le_sum (s : Writers P) (f : Nat → WritePc → Nat) (p : P) :
    f (s.buf p).length (s.pc p) ≤ s.sum f :=
  Finset.single_le_sum (f := fun q => f (s.buf q).length (s.pc q)) (fun _ _ => Nat.zero_le _)
    (Finset.mem_univ p)

structure LogInv (s : Writers P) : Prop where
  ops : s.log.outstanding = s.sum WritePc.ops
  pending : s.ip.size + s.sum WritePc.pending = s.base + s.group
  base : s.base ≤ s.ip.size
  group : s.group ≤ 24 * BSIZE
  kept : s.log.Kept s.total (s.base / BSIZE) ((s.base + s.group + (BSIZE - 1)) / BSIZE)
  quiet : s.log.outstanding = 0 → s.log.lh = [] ∧ s.group = 0

structure WritersInv (s : Writers P) : Prop where
  type : s.file.type = .inode
  writable : s.file.writable = true
  regular : s.ip.type = .file
  off : s.file.off = s.ip.size
  text : s.ip.content = s.old ++ (s.order.map Prod.snd).flatten
  own : ∀ q, OwnInv s q
  sum : s.ip.size + s.sum WritePc.behind = s.total
  bound : s.total ≤ MAXFILE * BSIZE
  log : LogInv s

theorem WritersInv.moves (inv : WritersInv s) (other : s.Elsewhere t p)
    (opened : t.file.type = s.file.type ∧ t.file.writable = s.file.writable ∧ t.ip.type = s.ip.type)
    (off : t.file.off = t.ip.size) (text : t.ip.content = t.old ++ (t.order.map Prod.snd).flatten)
    (own : OwnInv t p)
    (sum : t.ip.size + (t.pc p).behind (t.buf p).length + s.total =
      s.ip.size + (s.pc p).behind (s.buf p).length + t.total)
    (bound : t.total ≤ MAXFILE * BSIZE) (log : LogInv t) : WritersInv t where
  type := opened.1.trans inv.type
  writable := opened.2.1.trans inv.writable
  regular := opened.2.2.trans inv.regular
  off := off
  text := text
  own q := by
    by_cases here : q = p
    · rw [here]
      exact own
    · obtain ⟨pc, buf, order, calls, returned⟩ := other q here
      refine ⟨?_, ?_⟩
      · rw [pc, buf, order, calls]
        exact (inv.own q).pieces
      · rw [returned, calls]
        exact (inv.own q).returned
  sum := by
    have before := inv.sum
    have change := other.sum WritePc.behind
    omega
  bound := bound
  log := log

theorem Writers.work_less (other : s.Elsewhere t p)
    (less : (t.pc p).work (t.buf p).length < (s.pc p).work (s.buf p).length) : t.work < s.work := by
  have change := other.sum WritePc.work
  unfold Writers.work
  omega

theorem WritersInv.begin {i : Nat} (inv : WritersInv s) (at_ : s.pc p = .loop i)
    (more : i < (s.buf p).length)
    (groups : s.group + filewriteN1 (s.buf p).length i ≤ 24 * BSIZE) :
    let t := { s.goto p (.begun i) with
      log := { s.log with outstanding := s.log.outstanding + 1 }
      group := s.group + filewriteN1 (s.buf p).length i }
    WritersInv t ∧ t.work < s.work := by
  intro t
  have other : s.Elsewhere t p := Writers.elsewhere rfl rfl rfl rfl rfl
  have now : t.pc p = .begun i := update_self _ _ _
  obtain ⟨k, placed, pieces⟩ := (inv.own p).pieces
  rw [at_] at placed
  change i = min (k * filewriteMax) _ at placed
  refine ⟨inv.moves other ⟨rfl, rfl, rfl⟩ inv.off inv.text
    ⟨⟨k, by rw [now]; exact ⟨by omega, more⟩, pieces⟩, (inv.own p).returned⟩
    (by rw [now, at_]; rfl) inv.bound ⟨?_, ?_, inv.log.base, groups, ?_, nofun⟩,
    Writers.work_less other (by rw [now, at_]; exact Nat.lt_succ_self _)⟩
  · have change := other.sum WritePc.ops
    rw [now, at_] at change
    exact (congrArg (· + 1) inv.log.ops).trans change.symm
  · have change := other.sum WritePc.pending
    have before := inv.log.pending
    rw [now, at_] at change
    change _ + 0 = _ + filewriteN1 (s.buf p).length i at change
    change s.ip.size + t.sum WritePc.pending = s.base + (s.group + _)
    omega
  · have kept := inv.log.kept
    refine FileLog.Kept.mono ⟨kept.nodup, kept.sub, kept.room⟩ (Nat.div_le_div_right ?_)
    change _ ≤ s.base + (s.group + _) + _
    omega

theorem WritersInv.ret {i : Nat} (inv : WritersInv s) (at_ : s.pc p = .loop i)
    (done : ¬i < (s.buf p).length) :
    i = (s.buf p).length ∧ WritersInv (s.ret p (s.buf p).length) ∧
      (s.ret p (s.buf p).length).work < s.work := by
  have other : s.Elsewhere (s.ret p (s.buf p).length) p := fun q ne =>
    ⟨update_of_ne ne _ _, rfl, rfl, update_of_ne ne _ _, update_of_ne ne _ _⟩
  have now : (s.ret p (s.buf p).length).pc p = .idle := update_self _ _ _
  obtain ⟨k, placed, pieces⟩ := (inv.own p).pieces
  rw [at_] at placed
  change i = min (k * filewriteMax) _ at placed
  refine ⟨by omega, inv.moves other ⟨rfl, rfl, rfl⟩ inv.off inv.text
    ⟨⟨0, by rw [now]; rfl, ?_⟩, ?_⟩ ?_ inv.bound
    ⟨?_, ?_, inv.log.base, inv.log.group, inv.log.kept, inv.log.quiet⟩,
    Writers.work_less other (by rw [now, at_]; exact Nat.succ_pos _)⟩
  · change s.piecesOf p = (update s.calls p (s.calls p ++ [s.buf p]) p).flatMap _ ++ _
    rw [pieces, update_self, Lib.pieces_take_all (by decide) (by omega)]
    simp
  · change update s.returned p _ p = (update s.calls p _ p).map _
    rw [update_self, update_self, (inv.own p).returned]
    simp
  · rw [now, at_]
    change s.ip.size + 0 + s.total = s.ip.size + ((s.buf p).length - i) + s.total
    omega
  · have change := other.sum WritePc.ops
    rw [now, at_] at change
    exact inv.log.ops.trans change.symm
  · have change := other.sum WritePc.pending
    rw [now, at_] at change
    exact (congrArg (s.ip.size + ·) change).trans inv.log.pending

def Writers.wrote (s : Writers P) (p : P) (i n1 : Nat) (log : FileLog) : Writers P :=
  { s.goto p (.unlocked i n1) with
    ip := { s.ip with
      data := fun j => if s.ip.size ≤ j ∧ j < s.ip.size + n1 then
        (s.buf p).getD (i + (j - s.ip.size)) 0 else s.ip.data j
      size := s.ip.size + n1 }
    log := log
    file := { s.file with off := s.ip.size + n1 }
    order := s.order ++ [(p, ((s.buf p).drop i).take n1)] }

omit [Fintype P] in
theorem Writers.piece_wrote {i n1 : Nat} {log : FileLog} (regular : s.ip.type = .file)
    (off : s.file.off = s.ip.size) (len : filewriteN1 (s.buf p).length i = n1) (pos : 0 < n1)
    (fits : s.ip.size + n1 ≤ MAXFILE * BSIZE)
    (logged : s.log.writei s.ip.size s.file.off n1 = .ok log) :
    s.piece p i = .ok (s.wrote p i n1 log) := by
  have data : writei s.ip (fun j => (s.buf p).getD (i + j) 0) s.file.off n1 =
      .ok (n1, (s.wrote p i n1 log).ip) := by
    simp only [MAXFILE, NDIRECT, NINDIRECT, BSIZE] at fits
    rw [writei, if_neg (by rw [regular]; decide), off, if_neg (by omega),
      if_neg (by simp only [MAXFILE, NDIRECT, NINDIRECT, BSIZE]; omega), if_pos (by omega)]
    rfl
  rw [Writers.piece, len]
  dsimp only
  rw [data]
  dsimp only [bind, Except.bind]
  rw [if_neg (by omega), logged]
  dsimp only
  rw [if_pos (by omega), if_pos (by omega), off, Int.toNat_natCast]
  rfl

omit [Fintype P] in
theorem Writers.wrote_content {i n1 : Nat} {log : FileLog} (le : n1 ≤ (s.buf p).length - i) :
    (s.wrote p i n1 log).ip.content = s.ip.content ++ ((s.buf p).drop i).take n1 := by
  have same : Inode.content { (s.wrote p i n1 log).ip with size := s.ip.size } = s.ip.content :=
    List.map_congr_left fun j mem =>
      if_neg fun h => absurd (List.mem_range.mp mem) (Nat.not_lt.mpr h.1)
  rw [← same, ← Inode.content_append (n := n1)]
  · rfl
  · rw [List.length_take, List.length_drop]
    omega
  · intro j less
    refine (if_pos ⟨Nat.le_add_right _ _, Nat.add_lt_add_left less _⟩).trans ?_
    rw [Nat.add_sub_cancel_left]
    simp [less]

theorem WritersInv.piece {i : Nat} (inv : WritersInv s) (at_ : s.pc p = .begun i) :
    ∃ t, s.piece p i = .ok t ∧ WritersInv t ∧ t.work < s.work := by
  obtain ⟨k, placed, pieces⟩ := (inv.own p).pieces
  rw [at_] at placed
  obtain ⟨index, more⟩ := placed
  have pos := filewriteN1_pos more
  have le := filewriteN1_le (s.buf p).length i
  have mine := s.le_sum WritePc.behind p
  have begun := s.le_sum WritePc.pending p
  have op := s.le_sum WritePc.ops p
  rw [at_] at mine begun op
  change (s.buf p).length - i ≤ _ at mine
  change filewriteN1 (s.buf p).length i ≤ _ at begun
  have off := inv.off
  have sum := inv.sum
  have bound := inv.bound
  have pending := inv.log.pending
  have group := inv.log.group
  have base := inv.log.base
  have take := take_filewriteN1 (s.buf p) i
  have start : WritePc.pending (s.buf p).length (.begun i) = filewriteN1 (s.buf p).length i := rfl
  have rest (r : Int) : WritePc.behind (s.buf p).length (.unlocked i r) =
    (s.buf p).length - i - filewriteN1 (s.buf p).length i := rfl
  generalize len : filewriteN1 (s.buf p).length i = n1 at *
  obtain ⟨log, logged, kept, same⟩ := inv.log.kept.writei (by simp only [BSIZE] at *; omega)
    s.ip.size s.file.off n1 (inv.log.ops ▸ op)
    (by rw [off]; exact Nat.div_le_div_right base) (by simp only [BSIZE] at *; omega)
    (by omega) bound
  have each := Writers.piecesOf_append (s := s) (t := s.wrote p i n1 log) (p := p) rfl
  have other : s.Elsewhere (s.wrote p i n1 log) p := fun q ne =>
    ⟨update_of_ne ne _ _, rfl, by rw [each, if_neg ne, List.append_nil], rfl, rfl⟩
  have now : (s.wrote p i n1 log).pc p = .unlocked i n1 := update_self _ _ _
  have ops := other.sum WritePc.ops
  have left := other.sum WritePc.pending
  rw [now, at_] at ops left
  refine ⟨_, Writers.piece_wrote inv.regular off len pos (by omega) logged,
    inv.moves other ⟨rfl, rfl, rfl⟩ rfl ?_
      ⟨⟨k + 1, by rw [now]; exact ⟨by rw [Nat.succ_mul, index], more, congrArg _ len.symm⟩, ?_⟩,
        (inv.own p).returned⟩ ?_ bound
      ⟨?_, ?_, base.trans (Nat.le_add_right _ _), group, kept, fun zero => ?_⟩,
    Writers.work_less other ?_⟩
  · rw [Writers.wrote_content le, inv.text]
    change _ = s.old ++ ((s.order ++ [(p, _)]).map Prod.snd).flatten
    simp
  · rw [each, if_pos rfl, pieces, Lib.pieces_take_succ (by decide) (index ▸ more), take,
      index, List.append_assoc]
    rfl
  · rw [now, at_]
    change s.ip.size + n1 + WritePc.behind (s.buf p).length _ + s.total =
      s.ip.size + ((s.buf p).length - i) + s.total
    rw [rest]
    omega
  · exact same.trans (inv.log.ops.trans (Nat.add_right_cancel ops).symm)
  · change s.ip.size + n1 + _ = s.base + s.group
    rw [start] at left
    change _ + n1 = _ + 0 at left
    omega
  · change log.outstanding = 0 at zero
    rw [← inv.log.ops, ← same, zero] at op
    cases op
  · rw [now, at_]
    change 3 * ((s.buf p).length - i) - 1 < 3 * ((s.buf p).length - i)
    omega

omit [DecidableEq P] in
theorem Writers.sum_pending (none : s.sum WritePc.ops = 0) : s.sum WritePc.pending = 0 := by
  refine Finset.sum_eq_zero fun q mem => ?_
  have out := Finset.sum_eq_zero_iff.mp none q mem
  cases at_ : s.pc q with
  | begun i => rw [at_] at out; cases out
  | _ => rfl

theorem WritersInv.endOp {i : Nat} {r : Int} (inv : WritersInv s) (at_ : s.pc p = .unlocked i r) :
    r = filewriteN1 (s.buf p).length i ∧
      WritersInv (s.endOp.goto p (.loop (i + filewriteN1 (s.buf p).length i))) ∧
      (s.endOp.goto p (.loop (i + filewriteN1 (s.buf p).length i))).work < s.work := by
  obtain ⟨k, placed, pieces⟩ := (inv.own p).pieces
  rw [at_] at placed
  obtain ⟨index, more, result⟩ := placed
  have pos := filewriteN1_pos more
  have le := filewriteN1_le (s.buf p).length i
  have next := filewriteN1_next (s.buf p).length i
  have rest : WritePc.behind (s.buf p).length (.unlocked i r) =
    (s.buf p).length - i - filewriteN1 (s.buf p).length i := rfl
  generalize filewriteN1 (s.buf p).length i = n1 at *
  have other : s.Elsewhere (s.endOp.goto p (.loop (i + n1))) p :=
    Writers.elsewhere rfl rfl rfl rfl rfl
  have now : (s.endOp.goto p (.loop (i + n1))).pc p = .loop (i + n1) := update_self _ _ _
  have ops := other.sum WritePc.ops
  have left := other.sum WritePc.pending
  rw [now, at_] at ops left
  change _ + 1 = _ + 0 at ops
  have count : s.log.endOp.outstanding = (s.endOp.goto p (.loop (i + n1))).sum WritePc.ops := by
    change s.log.outstanding - 1 = _
    rw [inv.log.ops]
    omega
  refine ⟨result, inv.moves other ⟨rfl, rfl, rfl⟩ inv.off inv.text
    ⟨⟨k, by rw [now]; change i + n1 = min _ (s.buf p).length; omega, pieces⟩, (inv.own p).returned⟩
    ?_ inv.bound ?_, Writers.work_less other ?_⟩
  · rw [now, at_, rest]
    change s.ip.size + ((s.buf p).length - (i + n1)) + s.total = s.ip.size + _ + s.total
    omega
  · by_cases last : s.log.endOp.outstanding = 0
    · have none := Writers.sum_pending (count.symm.trans last)
      have base : (s.endOp.goto p (.loop (i + n1))).base = s.ip.size := if_pos last
      have group : (s.endOp.goto p (.loop (i + n1))).group = 0 := if_pos last
      have empty : (s.endOp.goto p (.loop (i + n1))).log.lh = [] := if_pos last
      refine ⟨count, ?_, base.le, ?_, ⟨?_, ?_, inv.log.kept.room⟩, fun _ => ⟨empty, group⟩⟩
      · rw [none, base, group]
        rfl
      · rw [group]
        exact Nat.zero_le _
      · rw [empty]
        exact List.nodup_nil
      · rw [empty]
        exact List.nil_subset _
    · have base : (s.endOp.goto p (.loop (i + n1))).base = s.base := if_neg last
      have group : (s.endOp.goto p (.loop (i + n1))).group = s.group := if_neg last
      have lh : (s.endOp.goto p (.loop (i + n1))).log.lh = s.log.lh := if_neg last
      refine ⟨count, ?_, ?_, ?_, ⟨?_, ?_, inv.log.kept.room⟩, fun zero => absurd zero last⟩
      · rw [base, group]
        exact (congrArg (s.ip.size + ·) left).trans inv.log.pending
      · rw [base]
        exact inv.log.base
      · rw [group]
        exact inv.log.group
      · rw [lh]
        exact inv.log.kept.nodup
      · rw [lh, base, group]
        exact inv.log.kept.sub
  · rw [now, at_]
    change 3 * ((s.buf p).length - (i + n1)) + 1 < 3 * ((s.buf p).length - i) - 1
    omega

theorem WritersInv.run (inv : WritersInv s) (groups : (WriteAct.run p).Groups s) :
    ∃ t, s.run p = .ok t ∧ WritersInv t ∧
      (t = s ∧ (s.pc p = .idle ∨ (∃ i, s.pc p = .loop i) ∧ s.log.beginOp = none) ∨
        t.work < s.work) := by
  unfold Writers.run
  cases at_ : s.pc p with
  | idle => exact ⟨s, rfl, inv, .inl ⟨rfl, .inl rfl⟩⟩
  | loop i =>
    dsimp only
    by_cases more : i < (s.buf p).length
    · rw [if_pos more]
      cases begin : s.log.beginOp with
      | none => exact ⟨s, rfl, inv, .inl ⟨rfl, .inr ⟨⟨i, rfl⟩, rfl⟩⟩⟩
      | some log =>
        simp only [WriteAct.Groups, at_] at groups
        cases (Option.ite_none_left_eq_some.mp begin).2
        obtain ⟨kept, less⟩ := inv.begin at_ more groups
        exact ⟨_, rfl, kept, .inr less⟩
    · obtain ⟨last, kept, less⟩ := inv.ret at_ more
      rw [if_neg more, if_pos last]
      exact ⟨_, rfl, kept, .inr less⟩
  | begun i =>
    obtain ⟨t, done, kept, less⟩ := inv.piece at_
    exact ⟨t, done, kept, .inr less⟩
  | unlocked i r =>
    obtain ⟨rfl, kept, less⟩ := inv.endOp at_
    dsimp only
    rw [if_neg (by omega), if_neg (by simp), Int.toNat_natCast]
    exact ⟨_, rfl, kept, .inr less⟩

theorem WritersInv.filewrite {addr : List UInt8} (inv : WritersInv s)
    (fits : (WriteAct.filewrite p addr).Fits s) :
    ∃ t, s.filewrite p addr = .ok t ∧ WritersInv t := by
  unfold Writers.filewrite
  by_cases idle : s.pc p = .idle
  · rw [if_pos idle, if_neg (by simp [inv.writable]), inv.type]
    dsimp only
    refine ⟨_, rfl, ?_⟩
    generalize shape : Writers.goto _ p (.loop 0) = t
    have now : t.pc p = .loop 0 ∧ t.buf p = addr := by
      rw [← shape]
      exact ⟨update_self _ _ _, update_self _ _ _⟩
    have other : s.Elsewhere t p := by
      rw [← shape]
      exact fun q ne => ⟨update_of_ne ne _ _, update_of_ne ne _ _, rfl, rfl, rfl⟩
    have ops := other.sum WritePc.ops
    have left := other.sum WritePc.pending
    rw [now.1, idle] at ops left
    obtain ⟨k, placed, pieces⟩ := (inv.own p).pieces
    rw [idle] at placed
    cases placed
    subst shape
    refine inv.moves other ⟨rfl, rfl, rfl⟩ inv.off inv.text
      ⟨⟨0, by rw [now.1]; exact (Nat.zero_min _).symm, pieces⟩, (inv.own p).returned⟩ ?_
      fits.1 ⟨inv.log.ops.trans ops.symm, ?_, inv.log.base, inv.log.group,
        ⟨inv.log.kept.nodup, inv.log.kept.sub, fits.2⟩, inv.log.quiet⟩
    · rw [now.1, now.2, idle]
      change s.ip.size + addr.length + s.total = s.ip.size + 0 + (s.total + addr.length)
      omega
    · exact (congrArg (s.ip.size + ·) left).trans inv.log.pending
  · rw [if_neg idle]
    exact ⟨s, rfl, inv⟩

theorem WritersInv.initial (start : WritersStart s) : WritersInv s where
  type := start.type
  writable := start.writable
  regular := start.regular
  off := start.atEnd
  text := by simp [start.old, start.order]
  own q := by
    refine ⟨⟨0, ?_, ?_⟩, ?_⟩
    · rw [start.idle]
      rfl
    · rw [Writers.piecesOf, start.order, start.calls]
      rfl
    · rw [start.returned, start.calls]
      rfl
  sum := by simp [start.total, Writers.sum, start.idle, WritePc.behind]
  bound := start.total ▸ start.small
  log := {
    ops := by simp [start.quiet, Writers.sum, start.idle, WritePc.ops]
    pending := by simp [start.base, start.group, Writers.sum, start.idle, WritePc.pending]
    base := start.base.le
    group := by simp [start.group]
    kept := ⟨by simp [start.empty], by simp [start.empty], by simp [start.total, start.mapped]⟩
    quiet := fun _ => ⟨start.empty, start.group⟩ }

/-- The calls fit, and so do the pieces that are under way together. -/
def WriteAct.Allowed (s : Writers P) (a : WriteAct P) : Prop := a.Fits s ∧ a.Groups s

theorem WritersInv.reached (run : Reaches Writers.step WriteAct.Allowed WritersStart s) :
    WritersInv s := by
  refine run.invariant WritersInv (fun s => WritersInv.initial) fun s a t inv allowed stepped => ?_
  cases a with
  | filewrite p addr =>
    obtain ⟨w, done, inv'⟩ := inv.filewrite allowed.1
    cases done.symm.trans stepped
    exact inv'
  | run p =>
    obtain ⟨w, done, inv', -⟩ := inv.run allowed.2
    cases done.symm.trans stepped
    exact inv'

/-- A process waits in begin_op only while another is in an operation, which it can go on
with. -/
theorem WritersInv.progress (inv : WritersInv s) (busy : s.pc p ≠ .idle) :
    ∃ q t, (WriteAct.run q).Groups s ∧ s.run q = .ok t ∧ t.work < s.work := by
  by_cases quiet : s.log.outstanding = 0
  · obtain ⟨empty, group⟩ := inv.log.quiet quiet
    have out := Finset.sum_eq_zero_iff.mp (inv.log.ops.symm.trans quiet) p (Finset.mem_univ p)
    have groups : (WriteAct.run p).Groups s := by
      cases at_ : s.pc p with
      | loop i =>
        simp only [WriteAct.Groups, at_, group, filewriteN1]
        split
        · decide
        · rename_i small
          refine Nat.le_trans (Nat.zero_add _).le (Nat.le_trans (Nat.not_lt.mp small) (by decide))
      | idle => exact absurd at_ busy
      | _ => simp [WriteAct.Groups, at_]
    obtain ⟨t, done, -, ⟨-, idle | ⟨-, wait⟩⟩ | less⟩ := inv.run groups
    · exact absurd idle busy
    · rw [FileLog.beginOp, empty, quiet] at wait
      cases wait
    · exact ⟨p, t, groups, done, less⟩
  · rw [inv.log.ops] at quiet
    obtain ⟨q, -, inOp⟩ := Finset.exists_ne_zero_of_sum_ne_zero quiet
    have groups : (WriteAct.run q).Groups s := by
      cases at_ : s.pc q with
      | loop i => rw [at_] at inOp; exact absurd rfl inOp
      | _ => simp [WriteAct.Groups, at_]
    obtain ⟨t, done, -, ⟨-, idle | ⟨⟨i, loop⟩, -⟩⟩ | less⟩ := inv.run groups
    · rw [idle] at inOp
      exact absurd rfl inOp
    · rw [loop] at inOp
      exact absurd rfl inOp
    · exact ⟨q, t, groups, done, less⟩

end Invariant

/-- No step fails, every step is a wait for space in the log or brings the calls nearer to
their end, and when all have returned the file is the old content and their pieces. -/
theorem shared_writes_not_lost {P : Type} [Fintype P] [DecidableEq P] {s : Writers P}
    (run : Reaches Writers.step WriteAct.Allowed WritersStart s) :
    (∀ a : WriteAct P, a.Allowed s → ∃ t, s.step a = .ok t) ∧
    (∀ p t, (WriteAct.run p).Allowed s → s.step (.run p) = .ok t → t = s ∨ t.work < s.work) ∧
    ((∃ p, s.pc p ≠ .idle) →
      ∃ p t, (WriteAct.run p).Allowed s ∧ s.step (.run p) = .ok t ∧ t.work < s.work) ∧
    ((∀ p, s.pc p = .idle) → s.ip.content = s.old ++ (s.order.map Prod.snd).flatten ∧
      ∀ p, s.piecesOf p = (s.calls p).flatMap (pieces filewriteMax) ∧
        s.returned p = (s.calls p).map fun addr => (addr.length : Int)) := by
  have inv := WritersInv.reached run
  refine ⟨fun a allowed => ?_, fun p t allowed stepped => ?_, fun ⟨p, busy⟩ => ?_, fun idle => ?_⟩
  · cases a with
    | filewrite p addr =>
      obtain ⟨t, done, -⟩ := inv.filewrite allowed.1
      exact ⟨t, done⟩
    | run p =>
      obtain ⟨t, done, -⟩ := inv.run allowed.2
      exact ⟨t, done⟩
  · obtain ⟨w, done, -, outcome⟩ := inv.run allowed.2
    cases done.symm.trans stepped
    exact outcome.imp_left And.left
  · obtain ⟨q, t, groups, done, less⟩ := inv.progress busy
    exact ⟨q, t, ⟨trivial, groups⟩, done, less⟩
  · refine ⟨inv.text, fun p => ?_⟩
    obtain ⟨k, placed, pieces⟩ := (inv.own p).pieces
    rw [idle p] at placed
    cases placed
    exact ⟨by simpa using pieces, (inv.own p).returned⟩

instance {P : Type} (s : Writers P) : (a : WriteAct P) → Decidable (a.Fits s)
  | .filewrite _ _ => inferInstanceAs (Decidable (_ ∧ _))
  | .run _ => inferInstanceAs (Decidable True)

instance {P : Type} (s : Writers P) : (a : WriteAct P) → Decidable (a.Groups s)
  | .filewrite _ _ => inferInstanceAs (Decidable True)
  | .run p => by
    unfold WriteAct.Groups
    dsimp only
    split <;> infer_instance

instance {P : Type} (s : Writers P) (a : WriteAct P) : Decidable (a.Allowed s) :=
  inferInstanceAs (Decidable (_ ∧ _))

/-- A file that has n bytes, all of them 9, in its first block if there are any. -/
def shortFile (n : Nat) : Writers Bool where
  ip := { size := n, data := fun _ => 9 }
  file := ⟨.inode, true, true, some 0, n⟩
  log := { free := List.range' 100 40, addrs := fun bn => if bn < n then some 50 else none
           bitmap := 28, inode := 3 }
  old := List.replicate n 9
  total := n
  base := n

theorem shortFile_start {n : Nat} (one : n = 0 ∨ n = 1) : WritersStart (shortFile n) := by
  rcases one with rfl | rfl <;>
  exact ⟨rfl, rfl, rfl, rfl, rfl, rfl, by decide, fun _ => rfl, rfl, fun _ => rfl, fun _ => rfl,
    rfl, rfl, rfl, rfl, by decide⟩

/-- Two calls under way together, of which the second gets the lock first. -/
def twoWrites : List (WriteAct Bool) :=
  [.filewrite false [1, 2], .filewrite true [3], .run false, .run true, .run true, .run false,
    .run true, .run true, .run false, .run false]

/-- Two processes append to one file, the second one first. -/
theorem both_writes_arrive : ∃ s : Writers Bool, (∀ p, s.pc p = .idle) ∧
    s.ip.content = [9] ++ [3] ++ [1, 2] ∧ s.piecesOf false = pieces filewriteMax [1, 2] ∧
    s.returned false = [2] := by
  have start : Reaches Writers.step WriteAct.Allowed WritersStart (shortFile 1) :=
    .start (shortFile_start (.inr rfl))
  obtain ⟨s, run, ended⟩ := start.exists_of_follow twoWrites
    (fun s => decide ((∀ p, s.pc p = .idle) ∧ s.old = [9] ∧
      s.order = [(true, [3]), (false, [1, 2])] ∧ s.calls false = [[1, 2]])) (by decide +kernel)
  obtain ⟨idle, old, order, calls⟩ := of_decide_eq_true ended
  obtain ⟨-, -, -, result⟩ := shared_writes_not_lost run
  obtain ⟨text, own⟩ := result idle
  obtain ⟨pieces, returned⟩ := own false
  rw [old, order] at text
  rw [calls] at pieces returned
  exact ⟨s, idle, text, by simpa using pieces, returned⟩

/-- Two processes write 6656 bytes each to a new file, and both are past begin_op before the
first of them has ended its operation. -/
def overflowing : List (WriteAct Bool) :=
  [.filewrite false (List.replicate filewriteMax 1),
    .filewrite true (List.replicate filewriteMax 2), .run false, .run true, .run false]

/-- The second of them ends in the panic of log_write. -/
theorem two_writers_overflow_log : ∃ s : Writers Bool,
    Reaches Writers.step (fun s a => a.Fits s) WritersStart s ∧
    s.step (.run true) = .error .tooBigTransaction := by
  have start : Reaches Writers.step (fun s a => a.Fits s) WritersStart (shortFile 0) :=
    .start (shortFile_start (.inl rfl))
  obtain ⟨s, run, fails⟩ := start.exists_of_follow overflowing
    (fun s => match s.step (.run true) with
      | .error .tooBigTransaction => true
      | _ => false) (by decide +kernel)
  refine ⟨s, run, ?_⟩
  split at fails
  · assumption
  · cases fails

end MmapXv6
