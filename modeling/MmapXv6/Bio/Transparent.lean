import MmapXv6.Bio.System

/-! The cache is transparent: a valid buffer holds the last data stored for its sector,
and a sector whose disk block is older has a buffer that cannot be recycled. -/
namespace MmapXv6

open Lib Function

variable {b : BufId} {dev disksize sector : Nat}

structure Content (buf : BufId → Buf D) (memdisk last : Nat → D)
    (unsaved : BufId → Bool) : Prop where
  unique : ∀ a b, (buf a).dev = (buf b).dev → (buf a).sector = (buf b).sector →
    (buf a).dev ≠ NODEV → a = b
  valid : ∀ b, (buf b).valid = true → (buf b).dev = 1 ∧ (buf b).data = last (buf b).sector
  pinned : ∀ b, (buf b).dirty = true ∨ unsaved b = true → (buf b).valid = true
  disk : ∀ x, memdisk x = last x ∨
    ∃ b, (buf b).dev = 1 ∧ (buf b).sector = x ∧ ((buf b).dirty = true ∨ unsaved b = true)

structure Holding (s : BioState P D) : Prop where
  owner : ∀ p q b, s.held p b = true → s.held q b = true → p = q
  busy : ∀ b, (s.buf b).busy = true ↔ ∃ p, s.held p b = true
  filling : ∀ p b dev sector, s.pc p = .filling b dev sector →
    s.held p b = true ∧ (s.buf b).dev = dev ∧ (s.buf b).sector = sector
  ready : ∀ p b, s.held p b = true → (s.buf b).valid = true ∨
    ∃ dev sector, s.pc p = .filling b dev sector
  unsaved : ∀ b, s.unsaved b = true → (s.buf b).busy = true

structure BioInv (s : BioState P D) : Prop where
  ring : ∃ order, RingOf s.cache.links order
  content : Content s.buf s.memdisk s.last s.unsaved
  holding : Holding s

section Initial

theorem initOne_buf (c : Bcache D) (a b : BufId) :
    ((c.initOne b).buf a) = if a = b then { c.buf a with dev := NODEV } else c.buf a :=
  set_buf (fun x => { x with dev := NODEV }) a

/-- The loop of binit: flags and data stay, the buffers it has passed have no device
and are in the ring. -/
theorem foldl_initOne (xs done : List BufId) (c : Bcache D) (once : (xs ++ done).Nodup)
    (ring : IsRing c.links none (done.map some)) :
    (∃ order : List BufId, IsRing (xs.foldl Bcache.initOne c).links none (order.map some) ∧ ∀ b,
      b ∈ order ↔ b ∈ xs ∨ b ∈ done) ∧
    ∀ b, ((xs.foldl Bcache.initOne c).buf b) = if b ∈ xs then { c.buf b with dev := NODEV } else
      c.buf b := by
  induction xs generalizing c done with
  | nil => exact ⟨⟨done, ring, by simp⟩, by simp⟩
  | cons x xs ih =>
    rw [List.cons_append, List.nodup_cons] at once
    have fresh : some x ∉ (none : Node) :: done.map some := by
      have : x ∉ done := fun m => once.1 (List.mem_append_right xs m)
      simpa using this
    have pushed : IsRing (c.initOne x).links none ((x :: done).map some) := ring.pushFront fresh
    obtain ⟨⟨order, last, mem⟩, bufs⟩ := ih (x :: done) (c.initOne x)
      (List.nodup_middle.mpr (List.nodup_cons.mpr once)) pushed
    refine ⟨⟨order, last, fun b => ?_⟩, fun b => ?_⟩
    · rw [mem b]; simp only [List.mem_cons]; tauto
    · rw [List.foldl_cons, bufs b, initOne_buf]
      by_cases e : b = x
      · subst e; simp
      · simp [e]

theorem binit_spec (data : BufId → D) :
    (∃ order, RingOf (binit data).links order) ∧
      ∀ b, (binit data).buf b = { dev := NODEV, data := data b } := by
  obtain ⟨⟨order, ring, mem⟩, bufs⟩ := foldl_initOne (List.finRange NBUF) []
    ({ buf := fun b => { data := data b }, links := ⟨fun _ => none, fun _ => none⟩ } : Bcache D)
    (by rw [List.append_nil]; exact List.nodup_finRange NBUF) ⟨rfl, rfl, by simp⟩
  refine ⟨⟨order, ring, fun b => (mem b).mpr (.inl (List.mem_finRange b))⟩, fun b => ?_⟩
  rw [binit, bufs b, if_pos (List.mem_finRange b)]

theorem BioInv.initial (disk : Nat → D) (data : BufId → D) :
    BioInv (.initial disk data : BioState P D) := by
  obtain ⟨ring, bufs⟩ := binit_spec data
  have buf : ∀ b, (BioState.initial disk data : BioState P D).buf b =
      { dev := NODEV, data := data b } := bufs
  refine ⟨ring, ⟨fun a b _ _ dev => ?_, fun b valid => ?_, fun b pinned => ?_, fun x => .inl rfl⟩,
    ⟨fun p q b held => ?_, fun b => ?_, fun p b dev sector pc => ?_, fun p b held => ?_,
      fun b unsaved => ?_⟩⟩
  · rw [buf a] at dev; exact absurd rfl dev
  · rw [buf b] at valid; cases valid
  · rw [buf b] at pinned; rcases pinned with e | e <;> cases e
  · cases held
  · rw [buf b]; simp [BioState.initial]
  · cases pc
  · cases held
  · cases unsaved

end Initial

section Content
variable {D : Type} {buf : BufId → Buf D} {memdisk last : Nat → D} {unsaved : BufId → Bool}
  {b : BufId} {x : Buf D}

theorem Content.unique_one (h : Content buf memdisk last unsaved) {a c : BufId}
    (deva : (buf a).dev = 1)
    (devc : (buf c).dev = 1) (same : (buf a).sector = (buf c).sector) : a = c :=
  h.unique a c (deva.trans devc.symm) same (by rw [deva]; decide)

theorem Content.disk_eq (h : Content buf memdisk last unsaved) (dev : (buf b).dev = 1)
    (clean : ¬ ((buf b).dirty = true ∨ unsaved b = true)) :
    memdisk (buf b).sector = last (buf b).sector := by
  refine (h.disk (buf b).sector).resolve_right (fun ⟨a, deva, same, pinned⟩ => ?_)
  exact clean (h.unique_one deva dev same ▸ pinned)

/-- A buffer of the disk changes to hold what is last stored for its sector; either the
disk does too, or the buffer is pinned. -/
theorem Content.change (h : Content buf memdisk last unsaved) {m l : Nat → D} {u : Bool}
    (one : (buf b).dev = 1)
    (dev : x.dev = 1) (sector : x.sector = (buf b).sector) (valid : x.valid = true)
    (data : x.data = l (buf b).sector)
    (elsewhere : ∀ y, y ≠ (buf b).sector → m y = memdisk y ∧ l y = last y)
    (here : m (buf b).sector = l (buf b).sector ∨ x.dirty = true ∨ u = true) :
    Content (update buf b x) m l (update unsaved b u) := by
  have self : update buf b x b = x := update_self _ _ _
  have other : ∀ a, a ≠ b → update buf b x a = buf a := fun a e => update_of_ne e _ _
  have apart : ∀ a, a ≠ b → (buf a).dev = 1 → (buf a).sector ≠ (buf b).sector :=
    fun a e deva same => e (h.unique_one deva one same)
  constructor
  · intro a c
    have key : ∀ a, (update buf b x a).dev = (buf a).dev ∧
        (update buf b x a).sector = (buf a).sector := by
      intro a
      by_cases e : a = b
      · subst e; rw [self]; exact ⟨dev.trans one.symm, sector⟩
      · rw [other a e]; exact ⟨rfl, rfl⟩
    rw [(key a).1, (key a).2, (key c).1, (key c).2]
    exact h.unique a c
  · intro a
    by_cases e : a = b
    · subst e; rw [self, sector]; exact fun _ => ⟨dev, data⟩
    · rw [other a e]
      intro v
      obtain ⟨deva, dataa⟩ := h.valid a v
      exact ⟨deva, dataa.trans (elsewhere _ (apart a e deva)).2.symm⟩
  · intro a
    by_cases e : a = b
    · subst e; rw [self]; exact fun _ => valid
    · rw [other a e, update_of_ne e]; exact h.pinned a
  · intro y
    by_cases es : y = (buf b).sector
    · subst es
      refine here.imp id (fun pin => ⟨b, ?_⟩)
      rw [self, update_self]
      exact ⟨dev, sector, pin⟩
    · obtain ⟨em, el⟩ := elsewhere y es
      rw [em, el]
      refine (h.disk y).imp id (fun ⟨a, old⟩ => ⟨a, ?_⟩)
      have e : a ≠ b := by rintro rfl; exact es old.2.1.symm
      rw [other a e, update_of_ne e]
      exact old

theorem Content.rebusy (h : Content buf memdisk last unsaved) (busy : Bool) :
    Content (update buf b { buf b with busy := busy }) memdisk last unsaved := by
  have same : ∀ a, ∃ v, update buf b { buf b with busy := busy }
      a = { buf a with busy := v } := by
    intro a
    by_cases e : a = b
    · subst e; exact ⟨busy, update_self _ _ _⟩
    · exact ⟨(buf a).busy, update_of_ne e _ _⟩
  refine ⟨fun a c => ?_, fun a => ?_, fun a => ?_,
    fun y => (h.disk y).imp id (fun ⟨a, old⟩ => ⟨a, ?_⟩)⟩
  · obtain ⟨_, ea⟩ := same a
    obtain ⟨_, ec⟩ := same c
    rw [ea, ec]; exact h.unique a c
  · obtain ⟨_, ea⟩ := same a
    rw [ea]; exact h.valid a
  · obtain ⟨_, ea⟩ := same a
    rw [ea]; exact h.pinned a
  · obtain ⟨_, ea⟩ := same a
    rw [ea]; exact old

theorem Content.recycle (h : Content buf memdisk last unsaved)
    (clean : ¬ ((buf b).dirty = true ∨ unsaved b = true))
    (uncached : ∀ a, ¬ ((buf a).dev = dev ∧ (buf a).sector = sector))
    (key : x.dev = dev ∧ x.sector = sector) (empty : x.valid = false ∧ x.dirty = false) :
    Content (update buf b x) memdisk last unsaved := by
  have other : ∀ a, a ≠ b → update buf b x a = buf a := fun a e => update_of_ne e _ _
  have self : update buf b x b = x := update_self _ _ _
  have unsavedb : unsaved b = false := by
    cases e : unsaved b with
    | false => rfl
    | true => exact absurd (.inr e) clean
  refine ⟨fun a c => ?_, fun a => ?_, fun a => ?_,
    fun y => (h.disk y).imp id (fun ⟨a, old⟩ => ⟨a, ?_⟩)⟩
  · by_cases ea : a = b <;> by_cases ec : c = b
    · intros; rw [ea, ec]
    · subst ea
      rw [self, other c ec, key.1, key.2]
      exact fun ed es _ => absurd ⟨ed.symm, es.symm⟩ (uncached c)
    · subst ec
      rw [self, other a ea, key.1, key.2]
      exact fun ed es _ => absurd ⟨ed, es⟩ (uncached a)
    · rw [other a ea, other c ec]; exact h.unique a c
  · by_cases e : a = b
    · subst e; rw [self, empty.1]; exact fun v => by cases v
    · rw [other a e]; exact h.valid a
  · by_cases e : a = b
    · subst e; rw [self, empty.2, unsavedb]; rintro (v | v) <;> cases v
    · rw [other a e]; exact h.pinned a
  · have e : a ≠ b := by rintro rfl; exact clean old.2.2
    rw [other a e]; exact old

end Content

section Moves
variable {P D : Type} {s : BioState P D}

theorem BioInv.repc (h : BioInv s) {pc : P → BioPc}
    (same : ∀ p b dev sector, pc p = .filling b dev sector ↔ s.pc p = .filling b dev sector) :
    BioInv { s with pc := pc } where
  ring := h.ring
  content := h.content
  holding :=
    { owner := h.holding.owner
      busy := h.holding.busy
      filling := fun p b dev sector e =>
        h.holding.filling p b dev sector ((same p b dev sector).mp e)
      ready := fun p b held => (h.holding.ready p b held).imp id
        (fun ⟨dev, sector, e⟩ => ⟨dev, sector, (same p b dev sector).mpr e⟩)
      unsaved := h.holding.unsaved }

theorem BioInv.wakeup (h : BioInv s) (b : BufId) : BioInv (s.wakeup b) := by
  refine h.repc (fun p a dev sector => ?_)
  cases e : s.pc p with
  | asleep c x y => dsimp only; split <;> simp
  | _ => simp

theorem BioInv.change (h : BioInv s) {x : Buf D} {m l : Nat → D} {u : Bool}
    (busy : (s.buf b).busy = true)
    (still : x.busy = true) (one : (s.buf b).dev = 1) (dev : x.dev = 1)
      (sector : x.sector = (s.buf b).sector)
    (valid : x.valid = true) (data : x.data = l (s.buf b).sector)
    (elsewhere : ∀ y, y ≠ (s.buf b).sector → m y = s.memdisk y ∧ l y = s.last y)
    (here : m (s.buf b).sector = l (s.buf b).sector ∨ x.dirty = true ∨ u = true) :
    BioInv { s with
      cache := s.cache.set b (fun _ => x), memdisk := m
      unsaved := update s.unsaved b u, last := l } := by
  refine ⟨h.ring, h.content.change one dev sector valid data elsewhere here, ?_⟩
  have hold := h.holding
  have buf : ∀ a, (s.cache.set b (fun _ => x)).buf a = if a = b then x else s.buf a :=
      set_buf (fun _ => x)
  refine ⟨hold.owner, fun a => ?_, fun p a d y pc => ?_, fun p a held => ?_,
    fun a unsaved => ?_⟩ <;> simp only [BioState.buf, buf] <;> by_cases e : a = b
  · subst e; rw [if_pos rfl, still, ← hold.busy a, busy]
  · rw [if_neg e]; exact hold.busy a
  · subst e
    obtain ⟨held, old⟩ := hold.filling p a d y pc
    rw [if_pos rfl, dev, sector]
    exact ⟨held, one.symm.trans old.1, old.2⟩
  · rw [if_neg e]; exact hold.filling p a d y pc
  · rw [if_pos e]; exact .inl valid
  · rw [if_neg e]; exact hold.ready p a held
  · rw [if_pos e]; exact still
  · rw [if_neg e]
    change update s.unsaved b u a = true at unsaved
    rw [update_of_ne e] at unsaved
    exact hold.unsaved a unsaved

variable [DecidableEq P]

theorem BioInv.goto (h : BioInv s) {p : P} {pc : BioPc}
    (from_ : ∀ b dev sector, s.pc p ≠ .filling b dev sector)
    (into : ∀ b dev sector, pc ≠ .filling b dev sector) : BioInv (s.goto p pc) := by
  refine h.repc (fun q b dev sector => ?_)
  by_cases e : q = p
  · subst e
    rw [update_self]
    exact ⟨fun e => absurd e (into b dev sector), fun e => absurd e (from_ b dev sector)⟩
  · rw [update_of_ne e]

theorem BioInv.finish (h : BioInv s) {p : P}
    (pc : s.pc p = .filling b dev sector)
    (valid : (s.buf b).valid = true) : BioInv (s.goto p .idle) := by
  have hold := h.holding
  refine ⟨h.ring, h.content, hold.owner, hold.busy, fun q a d y e => ?_, fun q a held => ?_,
    hold.unsaved⟩ <;>
    by_cases eq : q = p
  · subst eq
    rw [show (s.goto q .idle).pc q = .idle from update_self _ _ _] at e
    cases e
  · rw [show (s.goto p .idle).pc q = s.pc q from update_of_ne eq _ _] at e
    exact hold.filling q a d y e
  · subst eq
    rcases hold.ready q a held with v | ⟨d, y, e⟩
    · exact .inl v
    · cases pc.symm.trans e
      exact .inl valid
  · rw [show (s.goto p .idle).pc q = s.pc q from update_of_ne eq _ _]
    exact hold.ready q a held

theorem BioInv.take (h : BioInv s) {p : P} {x : Buf D}
    (idle : ∀ b dev sector, s.pc p ≠ .filling b dev sector)
    (free : (s.buf b).busy = false) (busy : x.busy = true)
    (content : Content (update s.buf b x) s.memdisk s.last s.unsaved) :
    BioInv (({ s with cache := s.cache.set b (fun _ => x) }.setHeld p b true).goto p
      (.filling b x.dev x.sector)) := by
  have hold := h.holding
  have nobody : ∀ q, s.held q b = false := by
    intro q
    cases e : s.held q b with
    | false => rfl
    | true => rw [(hold.busy b).mpr ⟨q, e⟩] at free; cases free
  have buf : ∀ a, (s.cache.set b (fun _ => x)).buf a = if a = b then x else s.buf a :=
      set_buf (fun _ => x)
  have held : ∀ q a, update s.held p (update (s.held p) b true) q a = true ↔
      (q = p ∧ a = b) ∨ s.held q a = true := by
    intro q a
    by_cases eq : q = p
    · subst eq
      by_cases ea : a = b
      · subst ea; simp
      · simp [ea]
    · simp [eq]
  have other : ∀ {q a}, s.held q a = true → a ≠ b := by
    rintro q a hq rfl
    rw [nobody q] at hq
    cases hq
  refine ⟨h.ring, content, fun q r a hq hr => ?_, fun a => ?_, fun q a d y pc => ?_,
    fun q a hq => ?_, fun a hu => ?_⟩
  · rcases (held q a).mp hq with ⟨eq, ea⟩ | hq <;> rcases (held r a).mp hr with ⟨er, ea'⟩ | hr
    · rw [eq, er]
    · exact absurd ea (other hr)
    · exact absurd ea' (other hq)
    · exact hold.owner q r a hq hr
  · simp only [BioState.buf, BioState.goto, BioState.setHeld, buf, held]
    by_cases e : a = b
    · subst e; rw [if_pos rfl]; exact ⟨fun _ => ⟨p, .inl ⟨rfl, rfl⟩⟩, fun _ => busy⟩
    · rw [if_neg e]
      refine (hold.busy a).trans
        (exists_congr (fun q => ⟨.inr, fun hq => hq.elim (fun both => absurd both.2 e) id⟩))
  · simp only [BioState.buf, BioState.goto, BioState.setHeld, buf, held] at pc ⊢
    by_cases eq : q = p
    · subst eq
      rw [update_self] at pc
      cases pc
      exact ⟨.inl ⟨rfl, rfl⟩, by rw [if_pos rfl], by rw [if_pos rfl]⟩
    · rw [update_of_ne eq] at pc
      obtain ⟨hq, key⟩ := hold.filling q a d y pc
      rw [if_neg (other hq)]
      exact ⟨.inr hq, key⟩
  · simp only [BioState.buf, BioState.goto, BioState.setHeld, buf]
    rcases (held q a).mp hq with ⟨rfl, rfl⟩ | hq
    · exact .inr ⟨_, _, update_self _ _ _⟩
    · rw [if_neg (other hq)]
      refine (hold.ready q a hq).imp id (fun ⟨d, y, e⟩ => ⟨d, y, ?_⟩)
      have eq : q ≠ p := by rintro rfl; exact idle a d y e
      rw [update_of_ne eq]
      exact e
  · simp only [BioState.buf, BioState.goto, BioState.setHeld, buf]
    have busyOld := hold.unsaved a hu
    have e : a ≠ b := by rintro rfl; rw [free] at busyOld; cases busyOld
    rw [if_neg e]
    exact busyOld

theorem BioInv.brelse (h : BioInv s) {p : P} (holds : s.Holds p b)
    (saved : s.unsaved b = false)
    {t : BioState P D} (released : s.brelse p b = .ok t) : BioInv t := by
  obtain ⟨idle, held⟩ := holds
  have hold := h.holding
  obtain ⟨order, ring⟩ := h.ring
  obtain ⟨order', moved⟩ := ring.moveFront b
  rw [BioState.brelse, MmapXv6.brelse, show (s.cache.buf b).busy = true from (hold.busy b).mpr
    ⟨p, held⟩] at released
  cases released
  have buf := set_buf (c := s.cache) (b := b) (fun x => { x with busy := false })
  have alone : ∀ q, s.held q b = true → q = p := fun q hq => hold.owner q p b hq held
  have after : ∀ q a, update s.held p (update (s.held p) b false) q a = true ↔
      s.held q a = true ∧ a ≠ b := by
    intro q a
    by_cases eq : q = p
    · subst eq
      by_cases ea : a = b
      · subst ea; simp
      · simp [ea]
    · rw [update_of_ne eq]
      exact ⟨fun hq => ⟨hq, fun e => eq (alone q (e ▸ hq))⟩, fun both => both.1⟩
  have holding : Holding ({ s with cache := { s.cache.set b (fun x => { x with busy := false }) with
      links := (s.cache.links.unlink (some b)).pushFront none (some b) } }.setHeld p b false) := by
    constructor
    · intro q r a hq hr
      exact hold.owner q r a ((after q a).mp hq).1 ((after r a).mp hr).1
    · intro a
      simp only [BioState.buf, BioState.setHeld, buf, after]
      by_cases e : a = b
      · subst e; simp
      · rw [if_neg e]
        exact (hold.busy a).trans (exists_congr (fun q => ⟨fun hq => ⟨hq, e⟩, fun both => both.1⟩))
    · intro q a d y pc
      obtain ⟨hq, key⟩ := hold.filling q a d y pc
      have e : a ≠ b := by
        rintro rfl
        cases (alone q hq ▸ idle).symm.trans pc
      simp only [BioState.buf, BioState.setHeld, buf, after, if_neg e]
      exact ⟨⟨hq, e⟩, key⟩
    · intro q a hq
      obtain ⟨hq, e⟩ := (after q a).mp hq
      simp only [BioState.buf, BioState.setHeld, buf, if_neg e]
      exact hold.ready q a hq
    · intro a hu
      have e : a ≠ b := by
        rintro rfl
        cases saved.symm.trans hu
      simp only [BioState.buf, BioState.setHeld, buf, if_neg e]
      exact hold.unsaved a hu
  have released : BioInv ({ s with cache := { s.cache.set b (fun x => { x with busy := false }) with
      links := (s.cache.links.unlink (some b)).pushFront none (some b) } }.setHeld p b false) :=
    ⟨⟨order', moved⟩, h.content.rebusy (b := b) false, holding⟩
  exact released.wakeup b

end Moves

section Steps
variable {P D : Type} {s : BioState P D} {b : BufId}

/-- The answers of bget: the buffer is taken, it is found free, or a clean one is
recycled for a sector that is not cached. -/
theorem bget_ok {c : Bcache D} {order : List BufId} (ring : RingOf c.links order)
    {r : BgetResult D} (h : bget c dev sector = .ok r) :
    (∃ b, r = .taken b) ∨
    (∃ b, r = .got b (c.set b (fun x => { x with busy := true })) ∧ (c.buf b).busy = false ∧
      (c.buf b).dev = dev ∧ (c.buf b).sector = sector) ∨
    ∃ b, r = .got b (c.set b (fun x =>
        { x with dev := dev, sector := sector, busy := true, valid := false, dirty := false })) ∧
      (c.buf b).busy = false ∧ (c.buf b).dirty = false ∧ ∀ a,
        ¬ ((c.buf a).dev = dev ∧ (c.buf a).sector = sector) := by
  rw [bget, ring.scan_next, ok_bind] at h
  split at h
  · rename_i b found
    have key := List.find?_some found
    simp only [Bcache.caches, decide_eq_true_eq] at key
    split at h
    · cases h; exact .inl ⟨b, rfl⟩
    · rename_i free
      cases h; exact .inr (.inl ⟨b, rfl, by simpa using free, key⟩)
  · rename_i missing
    have uncached : ∀ a, ¬ ((c.buf a).dev = dev ∧ (c.buf a).sector = sector) := by
      intro a
      simpa [Bcache.caches] using List.find?_eq_none.mp missing a (ring.all a)
    rw [bgetRecycle, ring.scan_prev, ok_bind] at h
    split at h
    · rename_i b found
      have clean := List.find?_some found
      simp only [Bcache.recyclable, Bool.and_eq_true, Bool.not_eq_true'] at clean
      cases h; exact .inr (.inr ⟨b, rfl, clean.1, clean.2, uncached⟩)
    · cases h

theorem iderw_ok {x : Buf D} {memdisk : Nat → D} {r : Buf D × (Nat → D)}
    (h : iderw disksize x memdisk = .ok r) :
    x.dev = 1 ∧ ((x.dirty = true ∧
      r = ({ x with dirty := false, valid := true }, update memdisk x.sector x.data)) ∨
      (x.dirty = false ∧ r = ({ x with data := memdisk x.sector, valid := true }, memdisk))) := by
  unfold iderw at h
  split at h
  · cases h
  split at h
  · cases h
  split at h
  · cases h
  split at h
  · cases h
  rename_i dev _
  split at h
  · rename_i dirty
    cases h; exact ⟨not_not.mp dev, .inl ⟨dirty, rfl⟩⟩
  · rename_i clean
    cases h; exact ⟨not_not.mp dev, .inr ⟨by simpa using clean, rfl⟩⟩

variable {p : P}

theorem BioInv.valid_of_holds (h : BioInv s) (holds : s.Holds p b) :
    (s.buf b).valid = true ∧ (s.buf b).busy = true := by
  refine ⟨(h.holding.ready p b holds.2).resolve_right (fun ⟨_, _, e⟩ => ?_),
    (h.holding.busy b).mpr ⟨p, holds.2⟩⟩
  cases holds.1.symm.trans e

theorem BioInv.store (h : BioInv s) (holds : s.Holds p b) (d : D) : BioInv (s.store b d) := by
  obtain ⟨valid, busy⟩ := h.valid_of_holds holds
  have one := (h.content.valid b valid).1
  have stored : update s.last (s.buf b).sector d (s.buf b).sector = d :=
      update_self _ _ _
  exact h.change (x := { s.buf b with data := d }) (m := s.memdisk) busy busy one one rfl valid
    stored.symm (fun y ne => ⟨rfl, update_of_ne ne _ _⟩) (.inr (.inr rfl))

theorem BioInv.logWrite (h : BioInv s) (holds : s.Holds p b) : BioInv (s.logWrite b) := by
  obtain ⟨valid, busy⟩ := h.valid_of_holds holds
  obtain ⟨one, data⟩ := h.content.valid b valid
  exact h.change (x := { s.buf b with dirty := true }) (m := s.memdisk) (l := s.last) busy busy one
    one rfl valid data
    (fun _ _ => ⟨rfl, rfl⟩) (.inr (.inl rfl))

theorem BioInv.bwrite (h : BioInv s) (holds : s.Holds p b) {t : BioState P D}
    (written : s.bwrite disksize b = .ok t) : BioInv t := by
  obtain ⟨valid, busy⟩ := h.valid_of_holds holds
  obtain ⟨one, data⟩ := h.content.valid b valid
  rw [BioState.bwrite, bind_ok] at written
  obtain ⟨r, hr, written⟩ := written
  cases written
  rw [MmapXv6.bwrite, if_neg (by simp [busy])] at hr
  obtain ⟨_, ⟨_, rfl⟩ | ⟨clean, _⟩⟩ := iderw_ok hr
  · refine h.change (x := { s.buf b with dirty := false, valid := true }) (l := s.last) busy busy
      one one rfl rfl data
      (fun y ne => ⟨update_of_ne ne _ _, rfl⟩) (.inl ?_)
    exact (update_self _ _ _).trans data
  · cases clean

variable [DecidableEq P]

theorem BioInv.scan (h : BioInv s) (pc : s.pc p = .looking dev sector)
    {t : BioState P D}
    (scanned : s.scan p dev sector = .ok t) : BioInv t := by
  obtain ⟨order, ring⟩ := h.ring
  have idle : ∀ b d y, s.pc p ≠ .filling b d y := fun b d y e => by cases pc.symm.trans e
  rw [BioState.scan, bind_ok] at scanned
  obtain ⟨r, hr, scanned⟩ := scanned
  rcases bget_ok ring hr with ⟨b, rfl⟩ | ⟨b, rfl, free, rfl, rfl⟩ | ⟨b, rfl, free, clean, uncached⟩
  · cases scanned
    exact h.goto idle (fun _ _ _ => BioPc.noConfusion)
  · cases scanned
    exact h.take (x := { s.buf b with busy := true }) idle free rfl (h.content.rebusy true)
  · cases scanned
    have saved : ¬ ((s.buf b).dirty = true ∨ s.unsaved b = true) := by
      rintro (e | e)
      · cases clean.symm.trans e
      · cases free.symm.trans (h.holding.unsaved b e)
    exact h.take
      (x := { s.buf b with
        dev := dev, sector := sector, busy := true, valid := false, dirty := false })
      idle free rfl (h.content.recycle saved uncached ⟨rfl, rfl⟩ ⟨rfl, rfl⟩)

theorem BioInv.fill (h : BioInv s) (pc : s.pc p = .filling b dev sector)
    {t : BioState P D} (filled : s.fill disksize p b = .ok t) :
    BioInv t ∧ (t.buf b).dev = dev ∧ (t.buf b).sector = sector ∧
      (t.buf b).data = s.last sector := by
  obtain ⟨held, rfl, rfl⟩ := h.holding.filling p b dev sector pc
  have busy := (h.holding.busy b).mpr ⟨p, held⟩
  rw [BioState.fill, breadFill, bind_ok] at filled
  obtain ⟨r, hr, filled⟩ := filled
  cases filled
  have self : ∀ x : Buf D,
      (({ s with cache := s.cache.set b (fun _ => x), memdisk := r.2 } : BioState P D).goto p
        .idle).buf b = x :=
    fun x => set_self (fun _ => x)
  rw [self]
  split at hr
  · rename_i valid
    cases hr
    have same : s.cache.set b (fun _ => s.buf b) = s.cache := by
      unfold Bcache.set BioState.buf
      rw [update_eq_self]
    rw [same]
    exact ⟨h.finish pc valid, rfl, rfl, (h.content.valid b valid).2⟩
  · rename_i invalid
    have unpinned : ¬ ((s.buf b).dirty = true ∨ s.unsaved b = true) :=
        fun pin => invalid (h.content.pinned b pin)
    obtain ⟨one, ⟨dirty, _⟩ | ⟨_, rfl⟩⟩ := iderw_ok hr
    · exact absurd (.inl dirty) unpinned
    · have fresh := h.content.disk_eq one unpinned
      have changed := h.change (b := b)
        (x := { s.buf b with data := s.memdisk (s.buf b).sector, valid := true })
        (m := s.memdisk) (l := s.last) (u := s.unsaved b) busy busy one one rfl rfl fresh
        (fun _ _ => ⟨rfl, rfl⟩) (.inl fresh)
      rw [update_eq_self] at changed
      refine ⟨changed.finish pc ?_, rfl, rfl, fresh⟩
      simp [BioState.buf]

theorem BioInv.step (h : BioInv s) {a : BioAct P D} (saves : SavesFirst s a)
    {t : BioState P D}
    (stepped : s.step disksize a = .ok t) : BioInv t := by
  cases a with
  | bread p dev sector =>
    cases stepped
    split
    · rename_i idle
      exact h.goto (fun _ _ _ e => by cases idle.symm.trans e) (fun _ _ _ => BioPc.noConfusion)
    · exact h
  | scan p =>
    simp only [BioState.step] at stepped
    split at stepped
    · rename_i dev sector pc
      exact h.scan pc stepped
    · cases stepped; exact h
  | wake p =>
    simp only [BioState.step] at stepped
    split at stepped
    · rename_i pc
      cases stepped
      exact h.goto (fun _ _ _ e => by cases pc.symm.trans e) (fun _ _ _ => BioPc.noConfusion)
    · cases stepped; exact h
  | fill p =>
    simp only [BioState.step] at stepped
    split at stepped
    · rename_i b dev sector pc
      exact (h.fill pc stepped).1
    · cases stepped; exact h
  | store p b d =>
    cases stepped
    split
    · rename_i holds
      exact h.store holds d
    · exact h
  | logWrite p b =>
    cases stepped
    split
    · rename_i holds
      exact h.logWrite holds
    · exact h
  | bwrite p b =>
    simp only [BioState.step] at stepped
    split at stepped
    · rename_i holds
      exact h.bwrite holds stepped
    · cases stepped; exact h
  | brelse p b =>
    simp only [BioState.step] at stepped
    split at stepped
    · rename_i holds
      exact h.brelse holds saves stepped
    · cases stepped; exact h

theorem bio_inv {disk : Nat → D} (run : s.Reached disksize disk) : BioInv s :=
  Reaches.invariant BioInv (by rintro _ ⟨data, rfl⟩; exact .initial disk data)
    (fun _ _ _ h saves stepped => h.step saves stepped) run

/-- The cache in every reachable state: no sector is in two buffers, the ring holds
every buffer once in both directions, a buffer is B_BUSY for exactly one process or not
at all and so no sector is held twice, and a bread that returns gives the last data
stored for its sector, or the block of the disk if there was none. -/
theorem bcache_transparent {disksize : Nat} {disk : Nat → D} (run : s.Reached disksize disk) :
    (∀ a b, (s.buf a).dev = (s.buf b).dev → (s.buf a).sector = (s.buf b).sector →
      (s.buf a).dev ≠ NODEV → a = b) ∧
    (∃ order : List BufId, order.Nodup ∧ (∀ b, b ∈ order) ∧
      Path s.cache.links.next none (order.map some) none ∧
      Path s.cache.links.prev none (order.map some).reverse none) ∧
    (∀ b, (s.buf b).busy = true ↔ ∃! p, s.held p b = true) ∧
    (∀ p q a b, s.held p a = true → s.held q b = true → (s.buf a).dev = (s.buf b).dev →
      (s.buf a).sector = (s.buf b).sector → (s.buf a).dev ≠ NODEV → p = q) ∧
    ∀ p b dev sector t, s.pc p = .filling b dev sector → s.step disksize (.fill p) = .ok t →
      t.Holds p b ∧ (t.buf b).dev = dev ∧ (t.buf b).sector = sector ∧
        (t.buf b).data = s.last sector := by
  have inv := bio_inv run
  obtain ⟨order, ring⟩ := inv.ring
  have owner := inv.holding.owner
  refine ⟨inv.content.unique, ⟨order, ring.nodup, ring.all, ring.ring.forth, ring.ring.back⟩,
    fun b => ?_, ?_, ?_⟩
  · rw [inv.holding.busy b]
    exact ⟨fun ⟨p, held⟩ => ⟨p, held, fun q hq => owner q p b hq held⟩,
      fun ⟨p, held, _⟩ => ⟨p, held⟩⟩
  · intro p q a b hp hq dev sector real
    cases inv.content.unique a b dev sector real
    exact owner p q a hp hq
  · intro p b dev sector t pc stepped
    simp only [BioState.step, pc] at stepped
    refine ⟨?_, (inv.fill pc stepped).2⟩
    rw [BioState.fill, bind_ok] at stepped
    obtain ⟨r, _, stepped⟩ := stepped
    cases stepped
    exact ⟨update_self _ _ _, (inv.holding.filling p b dev sector pc).1⟩

end Steps

/-- A logged store is seen by the next process that reads the sector. -/
theorem bcache_transparent_logged :
    ∃ s : BioState (Fin 2) Nat, s.Reached 10 (fun _ => 0) ∧ s.pc 1 = .filling 0 1 5 ∧
      ∀ t, s.step 10 (.fill 1) = .ok t → (t.buf 0).data = 42 := by
  have start : (BioState.initial (fun _ => 0) (fun _ => 7) : BioState (Fin 2) Nat).Reached 10
      (fun _ => 0) :=
    .start ⟨_, rfl⟩
  obtain ⟨s, run, last⟩ := start.exists_of_follow
    [.bread 0 1 5, .scan 0, .fill 0, .bread 1 1 5, .scan 1, .store 0 0 42, .logWrite 0 0,
      .brelse 0 0, .scan 1]
    (fun s => s.pc 1 = .filling 0 1 5 ∧ s.last 5 = 42) (by decide +kernel)
  simp only [decide_eq_true_eq] at last
  refine ⟨s, run, last.1, fun t stepped => ?_⟩
  have read := (bcache_transparent run).2.2.2.2 1 0 1 5 t last.1 stepped
  exact read.2.2.2.trans last.2

end MmapXv6
