import MmapXv6.Vm.Layout
import MmapXv6.Vm.Stores
import MmapXv6.Vm.Unmap

/-! What a process sees in its mappings, over any order of sbrk, mmap and accesses. A
mapping starts at whatever sz was. When that is a page boundary the pages of the mapping
are its own, they come in one by one with the bytes of the file, and they stay as they
are until they are stored to. -/
namespace MmapXv6

open Lib (bind_ok ok_bind Reaches)
open Function

variable {e : Pte} {f : Fin NFILE} {fs : Fs} {ip : Fin NINODE}
  {k : Fin MAXMAPPEDFILES} {user : Bool}

/-- A process and the addresses that were stored to since they were mapped. -/
structure Reading where
  vm : Vm
  stored : Nat → Bool := fun _ => false

inductive ReadingAct where
  | sbrk (n : Int)
  | mmap (fd : Int) (addr : Nat)
  | load (a : Nat)
  | store (a : Nat) (b : UInt8)

def markStored (stored : Nat → Bool) (p : Nat × UInt8) : Nat → Bool :=
  update stored p.1 true

def Reading.step (s : Reading) : ReadingAct → Except Panic Reading
  | .sbrk n => do .ok { s with vm := (← growproc s.vm n).2 }
  | .mmap fd addr => do
    let (r, t) ← mmap s.vm fd addr
    if r = 0 then
      -- what lies above the old sz is new, and then the result goes to addr
      .ok ⟨t, (wordBytes addr s.vm.proc.sz).foldl markStored
        fun a => decide (a < s.vm.proc.sz) && s.stored a⟩
    else .ok { s with vm := t }
  | .load a => do .ok { s with vm := (← s.vm.load a).2 }
  | .store a b => do
    let (ok, t) ← s.vm.store a b true
    .ok ⟨t, if ok then markStored s.stored (a, b) else s.stored⟩

/-- A process that is not killed, its arguments, and the addresses of its own half. -/
def ReadingAct.Legal (s : Reading) : ReadingAct → Prop
  | .sbrk n => s.vm.proc.killed = false ∧ -2 ^ 31 ≤ n ∧ n < 2 ^ 31
  | .mmap _ addr => s.vm.proc.killed = false ∧ addr + 4 ≤ 2 ^ 32
  | .load a | .store a _ => s.vm.proc.killed = false ∧ a < KERNBASE

/-- A file is mapped at a page boundary and its last page is one that allocuvm can give
out. A process that shrinks stays above its stack and its mappings. -/
def ReadingAct.Calm (s : Reading) : ReadingAct → Prop
  | .sbrk n => SpaceAct.Calm s.vm (.sbrk n)
  | .mmap fd addr => s.vm.proc.sz % PGSIZE = 0 ∧ addr + 4 ≤ KERNBASE ∧
      ∀ ip ∈ mapInode s.vm fd, s.vm.proc.sz + (s.vm.fs.inode ip).size ≤ KERNBASE - PGSIZE
  | .load _ | .store _ _ => True

instance ReadingAct.decidableLegal (s : Reading) : (a : ReadingAct) → Decidable (a.Legal s)
  | .sbrk _ => inferInstanceAs (Decidable (_ ∧ _ ∧ _))
  | .mmap _ _ | .load _ | .store _ _ => inferInstanceAs (Decidable (_ ∧ _))

instance ReadingAct.decidableCalm (s : Reading) : (a : ReadingAct) → Decidable (a.Calm s)
  | .sbrk n => inferInstanceAs (Decidable (SpaceAct.Calm s.vm (.sbrk n)))
  | .mmap _ _ => inferInstanceAs (Decidable (_ ∧ _ ∧ ∀ _ ∈ _, _))
  | .load _ | .store _ _ => isTrue trivial

structure Fs.Readable (fs : Fs) (f : Fin NFILE) (ip : Fin NINODE) : Prop
    extends fs.IsFile f ip where
  readable : (fs.file f).readable = true

theorem Fs.Readable.sought (h : fs.Readable f ip)
    (off : Nat) : (fs.setOff f off).Readable f ip :=
  ⟨h.toIsFile.setOff off, by simp [Fs.setOff, h.readable]⟩

theorem Fs.Readable.same {fs' : Fs} (h : fs'.Readable f ip)
    (same : SameFiles fs fs') : fs.Readable f ip where
  type := (same.file.type f).symm.trans h.type
  inode := (same.file.ip f).symm.trans h.inode
  plain := by
    rw [← same.inode]
    exact h.plain
  readable := (same.file.readable f).symm.trans h.readable

section Fault
variable {s t : Vm} {f : Fin NFILE} {ip : Fin NINODE} {m : Mmap} {base a : Nat}

theorem fileread_page (readable : fs.Readable f ip) (low : (fs.file f).off < KERNBASE)
    (inside : (fs.file f).off < (fs.inode ip).size) :
    ∃ n : Nat, n = (if (fs.inode ip).size < (fs.file f).off + PGSIZE
        then (fs.inode ip).size - (fs.file f).off else PGSIZE) ∧ fileread fs f PGSIZE =
      .ok (n, fun j => (fs.inode ip).data ((fs.file f).off + j),
        fs.setOff f ((fs.file f).off + n)) := by
  refine ⟨_, rfl, ?_⟩
  have pos : (0 : Int) < ((if (fs.inode ip).size < (fs.file f).off + PGSIZE
      then (fs.inode ip).size - (fs.file f).off else PGSIZE : Nat) : Int) := by
    split
    · omega
    · decide
  have fits : ¬((fs.inode ip).size < (fs.file f).off ∨
      ((fs.file f).off + PGSIZE) % 2 ^ 32 < (fs.file f).off) := by
    simp only [KERNBASE, PGSIZE] at low ⊢
    omega
  unfold fileread readi
  simp only [readable.readable, readable.type, readable.inode, not_true_eq_false, if_false,
    if_neg readable.plain, if_neg fits, ok_bind, if_pos pos, Int.toNat_natCast]

theorem loadMapped_bytes (file : m.pfile = some f) (readable : s.fs.Readable f ip)
    (le : m.va ≤ base) (low : base < KERNBASE) (inside : base - m.va < (s.fs.inode ip).size)
    (there : s.entry (base / PGSIZE) = some e) :
    ∃ fs page, SameFiles s.fs fs ∧
      loadMapped s m base = .ok (Vm.fill { s with fs := fs } (base / PGSIZE) e page) ∧
      ∀ j, j < PGSIZE → base - m.va + j < (s.fs.inode ip).size →
        page j = (s.fs.inode ip).data (base - m.va + j) := by
  have offset : (base + 2 ^ 32 - m.va) % 2 ^ 32 = base - m.va := by
    simp only [KERNBASE] at low
    omega
  have sought : fileseek s.fs f (base - m.va) = .ok (s.fs.setOff f (base - m.va)) :=
    fileseek_page readable.inode (by omega)
  have same : SameFiles s.fs (s.fs.setOff f (base - m.va)) := .setOff _ _ _
  have moved : ((s.fs.setOff f (base - m.va)).file f).off = base - m.va := by simp [Fs.setOff]
  obtain ⟨n, count, read⟩ := fileread_page (readable.sought (base - m.va)) (by rw [moved]; omega)
    (by rw [moved]; exact inside)
  rw [moved] at count read
  change n = if (s.fs.inode ip).size < base - m.va + PGSIZE then
    (s.fs.inode ip).size - (base - m.va) else PGSIZE at count
  refine ⟨_, fun j => if j < n then (s.fs.inode ip).data (base - m.va + j) else s.kmem.mem e.pa j,
    same.trans (fileread_same read), ?_, ?_⟩
  · unfold loadMapped
    rw [file]
    dsimp only
    have there' : Vm.entry { s with fs := (s.fs.setOff f (base - m.va)).setOff f (base - m.va + n) }
        (base / PGSIZE) = some e := there
    rw [offset, sought, ok_bind, read, ok_bind, if_neg, there']
    · rfl
    · simp only [PGSIZE] at count
      split at count <;> omega
  · intro j page size
    dsimp only
    rw [if_pos]
    split at count <;> omega

end Fault

/-- Where nothing was stored, the pages of a mapping have the bytes of its file. -/
def Shown (s : Vm) (stored : Nat → Bool) : Prop :=
  ∀ k f ip i e, (s.proc.ommap k).pfile = some f → s.fs.Readable f ip → i < (s.proc.ommap k).sz →
    stored ((s.proc.ommap k).va + i) = false →
    s.entry (((s.proc.ommap k).va + i) / PGSIZE) = some e →
    e.user = true ∧ s.kmem.mem e.pa (((s.proc.ommap k).va + i) % PGSIZE) = (s.fs.inode ip).data i

structure ReadInv (s : Vm) (stored : Nat → Bool) : Prop where
  space : SpaceInv s.proc
  apart : s.uvm.Apart
  place : ∀ k, Live s.proc k → (s.proc.ommap k).va % PGSIZE = 0 ∧
    (s.proc.ommap k).va + (s.proc.ommap k).sz ≤ KERNBASE - PGSIZE
  size : ∀ k f ip, (s.proc.ommap k).pfile = some f → (s.fs.file f).ip = some ip →
    (s.proc.ommap k).sz ≤ (s.fs.inode ip).size
  shown : Shown s stored

theorem live_of_pfile {p : Proc}
    (file : (p.ommap k).pfile = some f) : Live p k := by
  simp [Live, file]

section Steps
variable {s t : Vm} {stored stored' : Nat → Bool} {a : Nat}

theorem Shown.mono (h : Shown s stored) (more : ∀ a, stored' a = false → stored a = false) :
    Shown s stored' := by
  intro k f ip i e file readable inside clean there
  exact h k f ip i e file readable inside (more _ clean) there

theorem ReadInv.same_page (h : ReadInv s stored) {j : Fin MAXMAPPEDFILES} {b c : Nat}
    (hj : Live s.proc j) (hk : Live s.proc k)
    (inj : (s.proc.ommap j).va ≤ b ∧ b < (s.proc.ommap j).va + (s.proc.ommap j).sz)
    (ink : (s.proc.ommap k).va ≤ c ∧ c < (s.proc.ommap k).va + (s.proc.ommap k).sz)
    (page : b / PGSIZE = c / PGSIZE) : j = k := by
  by_contra ne
  have order := h.space.order j k ne hj hk
  have startj := (h.place j hj).1
  have startk := (h.place k hk).1
  simp only [PGSIZE] at startj startk page
  omega

theorem ReadInv.inMapping (h : ReadInv s stored) (live : Live s.proc k) :
    InMapping s.proc k a ↔
      (s.proc.ommap k).va ≤ a ∧ a < (s.proc.ommap k).va + (s.proc.ommap k).sz := by
  have low := (h.place k live).2
  have word : ((s.proc.ommap k).va + (s.proc.ommap k).sz) % 2 ^ 32 =
      (s.proc.ommap k).va + (s.proc.ommap k).sz := by
    simp only [KERNBASE, PGSIZE] at low
    omega
  unfold InMapping
  rw [word]
  exact ⟨And.right, And.intro live⟩

theorem Faulted.brings (fault : Faulted s a user t) (h : ReadInv s stored) {i : Nat}
    (file : (s.proc.ommap k).pfile = some f) (readable : s.fs.Readable f ip)
    (inside : i < (s.proc.ommap k).sz)
    (absent : s.entry (((s.proc.ommap k).va + i) / PGSIZE) = none)
    (there : t.entry (((s.proc.ommap k).va + i) / PGSIZE) = some e) :
    e.user = true ∧ t.kmem.mem e.pa (((s.proc.ommap k).va + i) % PGSIZE) =
      (s.fs.inode ip).data i := by
  have live := live_of_pfile file
  obtain ⟨aligned, low⟩ := h.place k live
  have start := (h.space.inside k live).1
  have new : ∀ u : Uvm, Paged s.uvm u (a / PGSIZE) → ∀ e',
      u.pgdir.entry (((s.proc.ommap k).va + i) / PGSIZE) = some e' →
      ((s.proc.ommap k).va + i) / PGSIZE = a / PGSIZE ∧ e'.user = true := by
    intro u paged e' there
    rcases paged.entry with same | ⟨pa, added⟩
    · rw [same] at there
      cases absent.symm.trans there
    · rw [added, update_apply] at there
      split at there
      · cases there
        exact ⟨‹_›, rfl⟩
      · cases absent.symm.trans there
  cases fault with
  | killed _ => cases absent.symm.trans there
  | @stack u window paged =>
    -- the window ends where the first mapping may start
    have page := (new u paged e there).1
    have below := window.2
    have word := Nat.mod_le (s.proc.sstack + MAXSTACKPAGES * PGSIZE) (2 ^ 32)
    simp only [PGSIZE] at aligned page start below word
    omega
  | @mapped u _ j within paged loaded =>
    have before : ∃ e', u.pgdir.entry (((s.proc.ommap k).va + i) / PGSIZE) = some e' := by
      have kept := loadMapped_loaded loaded
      rw [show PGROUNDDOWN a / PGSIZE = a / PGSIZE from Nat.mul_div_cancel _ (by decide)] at kept
      cases kept with
      | nothing _ => exact ⟨e, there⟩
      | @page fs e' page _ present =>
        rw [Vm.fill_entry (s := { s.setUvm u with fs := fs }) present, update_apply] at there
        split at there
        · rename_i same
          exact ⟨e', same ▸ present⟩
        · exact ⟨e, there⟩
    obtain ⟨e', present⟩ := before
    obtain ⟨page, mode⟩ := new u paged e' present
    have at_k := (h.inMapping within.1).mp within
    obtain rfl : j = k := h.same_page within.1 live at_k ⟨Nat.le_add_right _ i, by omega⟩ page.symm
    have base : PGROUNDDOWN a = ((s.proc.ommap j).va + i) / PGSIZE * PGSIZE := by
      unfold PGROUNDDOWN
      rw [page]
    have size := h.size j f ip file readable.inode
    have whole := Nat.div_add_mod ((s.proc.ommap j).va + i) PGSIZE
    have offset := Nat.mod_lt ((s.proc.ommap j).va + i) (show 0 < PGSIZE by decide)
    have index : PGROUNDDOWN a / PGSIZE = ((s.proc.ommap j).va + i) / PGSIZE := by
      rw [base, Nat.mul_div_cancel _ (by decide)]
    rw [← index] at present there
    have le : (s.proc.ommap j).va ≤ PGROUNDDOWN a := by
      rw [base]
      simp only [PGSIZE] at aligned ⊢
      omega
    have byte : PGROUNDDOWN a - (s.proc.ommap j).va + ((s.proc.ommap j).va + i) % PGSIZE = i := by
      rw [Nat.mul_comm, ← base] at whole
      omega
    obtain ⟨fs, bytes, -, filled, data⟩ := loadMapped_bytes (s := s.setUvm u) file readable le
      (by omega) (show _ < (s.fs.inode ip).size by omega) present
    rw [loaded] at filled
    cases filled
    rw [Vm.fill_entry (s := { s.setUvm u with fs := fs }) present, update_self] at there
    cases there
    refine ⟨mode, ?_⟩
    rw [Vm.fill_mem]
    rw [update_self, data _ offset (by rw [byte]; exact Nat.lt_of_lt_of_le inside size), byte]
    rfl

theorem ReadInv.faulted (h : ReadInv s stored) (low : a < KERNBASE)
    (fault : Faulted s a user t) : ReadInv t stored := by
  have grown := trapped_extends low fault.trapped
  have live : ∀ k, Live t.proc k → Live s.proc k := by
    intro k hk
    unfold Live at hk ⊢
    rwa [grown.ommap] at hk
  constructor
  · exact h.space.trapped fault.trapped
  · exact grown.apart h.apart
  · intro k hk
    rw [grown.ommap]
    exact h.place k (live k hk)
  · intro k f ip file inode
    rw [grown.ommap] at file ⊢
    rw [grown.files.inode]
    exact h.size k f ip file ((grown.files.file.ip f).symm.trans inode)
  · intro k f ip i e file readable inside clean there
    rw [grown.ommap] at file inside clean there ⊢
    rw [grown.files.inode]
    have below := (h.place k (live_of_pfile file)).2
    have page : ((s.proc.ommap k).va + i) / PGSIZE < UPAGES := user_page (by omega)
    cases before : s.entry (((s.proc.ommap k).va + i) / PGSIZE) with
    | none => exact fault.brings h file (readable.same grown.files) inside before there
    | some e' =>
      obtain ⟨still, mem⟩ := grown.page h.apart _ e' page before
      obtain rfl := Option.some.inj (there.symm.trans still)
      rw [mem]
      exact h.shown k f ip i e file (readable.same grown.files) inside clean before

theorem ReadInv.fill (h : ReadInv s stored) (b : UInt8) (low : a < KERNBASE)
    (there : s.entry (a / PGSIZE) = some e) :
    ReadInv (s.fill (a / PGSIZE) e (update (s.kmem.mem e.pa) (a % PGSIZE) b))
      (markStored stored (a, b)) := by
  refine ⟨h.space.fill there _, Vm.fill_apart there _ h.apart, h.place, h.size, ?_⟩
  intro k f ip i e' file readable inside clean found
  change i < (s.proc.ommap k).sz at inside
  change update stored a true ((s.proc.ommap k).va + i) = false at clean
  rw [Vm.fill_entry there] at found
  rw [Vm.fill_mem]
  change update s.entry (a / PGSIZE) _ (((s.proc.ommap k).va + i) / PGSIZE) = some e' at found
  change _ ∧ update s.kmem.mem e.pa _ e'.pa (((s.proc.ommap k).va + i) % PGSIZE) =
    (s.fs.inode ip).data i
  have other : (s.proc.ommap k).va + i ≠ a := by
    rintro rfl
    rw [update_self] at clean
    cases clean
  rw [update_of_ne other] at clean
  have below := (h.place k (live_of_pfile file)).2
  have page : ((s.proc.ommap k).va + i) / PGSIZE < UPAGES := user_page (by omega)
  by_cases same : ((s.proc.ommap k).va + i) / PGSIZE = a / PGSIZE
  · rw [same, update_self] at found
    cases found
    obtain ⟨mode, byte⟩ := h.shown k f ip i e file readable inside clean (same ▸ there)
    have offset : ((s.proc.ommap k).va + i) % PGSIZE ≠ a % PGSIZE := by
      intro offset
      apply other
      rw [← Nat.div_add_mod ((s.proc.ommap k).va + i) PGSIZE, same, offset, Nat.div_add_mod]
    rw [update_self, update_of_ne offset]
    exact ⟨mode, byte⟩
  · rw [update_of_ne same] at found
    rw [update_of_ne (h.apart.pa_ne page (user_page low) found there same)]
    exact h.shown k f ip i e' file readable inside clean found

theorem ReadInv.access (h : ReadInv s stored) {write : Bool} {r : Option Pte} (low : a < KERNBASE)
    (done : s.access a write user = .ok (r, t)) :
    ReadInv t stored ∧ ∀ e ∈ r, t.entry (a / PGSIZE) = some e := by
  unfold Vm.access at done
  split at done
  · rename_i e admitted
    cases done
    exact ⟨h, fun e' here => Option.some.inj here ▸ Vm.admits_some admitted⟩
  · obtain ⟨w, trapped, made⟩ := bind_ok.mp done
    have inv := h.faulted low (trap_faulted (low.trans (by decide)) trapped)
    split at made
    · cases made
      exact ⟨inv, fun e here => by cases here⟩
    · split at made
      · rename_i e admitted
        cases made
        exact ⟨inv, fun e' here => Option.some.inj here ▸ Vm.admits_some admitted⟩
      · cases made

theorem ReadInv.load (h : ReadInv s stored) {b : Option UInt8} (low : a < KERNBASE)
    (done : s.load a = .ok (b, t)) : ReadInv t stored := by
  obtain ⟨⟨r, w⟩, accessed, rest⟩ := bind_ok.mp done
  have inv := (h.access low accessed).1
  cases r with
  | none =>
    cases rest
    exact inv
  | some e =>
    cases rest
    exact inv

theorem ReadInv.store (h : ReadInv s stored) {b : UInt8} {ok : Bool} (low : a < KERNBASE)
    (done : s.store a b user = .ok (ok, t)) :
    ReadInv t (if ok then markStored stored (a, b) else stored) := by
  obtain ⟨⟨r, w⟩, accessed, rest⟩ := bind_ok.mp done
  obtain ⟨inv, there⟩ := h.access low accessed
  cases r with
  | none =>
    cases rest
    exact inv
  | some e =>
    cases rest
    exact inv.fill b low (there e rfl)

theorem ReadInv.mark (h : ReadInv s stored) (p : Nat × UInt8) :
    ReadInv s (markStored stored p) := by
  refine ⟨h.space, h.apart, h.place, h.size, h.shown.mono fun c clean => ?_⟩
  unfold markStored at clean
  rw [update_apply] at clean
  split at clean
  · cases clean
  · exact clean

theorem ReadInv.puts {ps : List (Nat × UInt8)} (h : ReadInv s stored)
    (low : ∀ p ∈ ps, p.1 < KERNBASE)
    (done : ps.foldlM Vm.put s = .ok t) : ReadInv t (ps.foldl markStored stored) := by
  induction ps generalizing s stored with
  | nil =>
    cases done
    exact h
  | cons p ps ih =>
    rw [List.foldlM_cons] at done
    obtain ⟨m, first, rest⟩ := bind_ok.mp done
    obtain ⟨⟨ok, m'⟩, made, eq⟩ := bind_ok.mp first
    cases eq
    refine ih ?_ (fun q mem => low q (List.mem_cons_of_mem p mem)) rest
    have inv := h.store (low p List.mem_cons_self) made
    cases ok with
    | false => exact inv.mark p
    | true => exact inv

theorem ReadInv.addMmap (h : ReadInv s stored) {i : Fin MAXMAPPEDFILES}
    (inode : (s.fs.file f).ip = some ip) (aligned : s.proc.sz % PGSIZE = 0)
    (low : s.proc.sz + (s.fs.inode ip).size ≤ KERNBASE - PGSIZE) :
    ReadInv (s.addMmap i f (s.fs.inode ip).size)
      (fun a => decide (a < s.proc.sz) && stored a) := by
  have fits : s.proc.sz + (s.fs.inode ip).size + (PGSIZE - 1) < 2 ^ 32 := by
    simp only [KERNBASE, PGSIZE] at low ⊢
    omega
  refine ⟨h.space.addMmap i f fits, h.apart, ?_, ?_, ?_⟩
  · intro k live
    by_cases new : k = i
    · subst new
      rw [addMmap_self]
      exact ⟨aligned, low⟩
    · rw [addMmap_ne new]
      exact h.place k (addMmap_live live new)
  · intro k g jp file other
    by_cases new : k = i
    · subst new
      rw [addMmap_self] at file ⊢
      cases file
      cases inode.symm.trans other
      exact Nat.le_refl _
    · rw [addMmap_ne new] at file ⊢
      exact h.size k g jp file other
  · intro k g jp j e file readable inside clean there
    by_cases new : k = i
    · subst new
      rw [addMmap_self] at inside there
      dsimp only at inside there
      have above := h.space.above ((s.proc.sz + j) / PGSIZE) (user_page (by omega)) (by
        rw [PGROUNDUP_aligned aligned (by omega)]
        simp only [PGSIZE] at aligned ⊢
        omega)
      cases above.symm.trans there
    · rw [addMmap_ne new] at file inside clean there ⊢
      have below := (h.space.inside k (live_of_pfile file)).2
      dsimp only at clean
      rw [decide_eq_true (by omega), Bool.true_and] at clean
      exact h.shown k g jp j e file readable inside clean there

theorem ReadInv.resize (h : ReadInv s stored) (space : SpaceInv t.proc) (apart : t.uvm.Apart)
    (ommap : t.proc.ommap = s.proc.ommap) (fs : t.fs = s.fs)
    (page : ∀ k i e, Live s.proc k → i < (s.proc.ommap k).sz →
      t.entry (((s.proc.ommap k).va + i) / PGSIZE) = some e →
      s.entry (((s.proc.ommap k).va + i) / PGSIZE) = some e ∧
      t.kmem.mem e.pa = s.kmem.mem e.pa) : ReadInv t stored := by
  refine ⟨space, apart, ?_, ?_, ?_⟩
  · intro k live
    unfold Live at live
    rw [ommap] at live ⊢
    exact h.place k live
  · rw [ommap, fs]
    exact h.size
  · intro k f ip i e file readable inside clean there
    rw [ommap] at file inside clean there ⊢
    rw [fs] at readable ⊢
    obtain ⟨before, mem⟩ := page k i e (live_of_pfile file) inside there
    rw [mem]
    exact h.shown k f ip i e file readable inside clean before

theorem ReadInv.growproc (h : ReadInv s stored) {n r : Int} (calm : SpaceAct.Calm s (.sbrk n))
    (done : growproc s n = .ok (r, t)) : ReadInv t stored := by
  have space := h.space.growproc calm done
  have user : ∀ k i, Live s.proc k → i < (s.proc.ommap k).sz →
      ((s.proc.ommap k).va + i) / PGSIZE < UPAGES := by
    intro k i live inside
    have low := (h.place k live).2
    exact user_page (by omega)
  have finish : ∀ x : Nat × Uvm, SpaceInv (s.resized x).proc → x.2.Apart →
      (∀ k i e, Live s.proc k → i < (s.proc.ommap k).sz →
        x.2.pgdir.entry (((s.proc.ommap k).va + i) / PGSIZE) = some e →
        s.entry (((s.proc.ommap k).va + i) / PGSIZE) = some e ∧
          x.2.kmem.mem e.pa = s.kmem.mem e.pa) → ReadInv (s.resized x) stored := by
    intro x inv apart page
    unfold Vm.resized at inv ⊢
    by_cases failed : x.1 = 0
    · rw [if_pos failed] at inv ⊢
      exact h.resize inv apart rfl rfl page
    · rw [if_neg failed] at inv ⊢
      exact h.resize inv apart rfl rfl page
  have unchanged : ∀ x : Nat × Uvm, x.2 = s.uvm → ∀ k i e, Live s.proc k → i < (s.proc.ommap k).sz →
      x.2.pgdir.entry (((s.proc.ommap k).va + i) / PGSIZE) = some e →
      s.entry (((s.proc.ommap k).va + i) / PGSIZE) = some e ∧
        x.2.kmem.mem e.pa = s.kmem.mem e.pa := by
    intro x same k i e _ _ there
    rw [same] at there ⊢
    exact ⟨there, rfl⟩
  cases growproc_resizing done with
  | same => exact h
  | @grow x pos grown =>
    obtain ⟨r, u⟩ := x
    rcases allocuvm_cases grown with ⟨-, -, same⟩ | ⟨-, -, same⟩ | ⟨-, low, loop⟩
    · exact finish (r, u) space (same ▸ h.apart) (unchanged (r, u) same)
    · exact finish (r, u) space (same ▸ h.apart) (unchanged (r, u) same)
    · obtain ⟨apart, mem⟩ := loop.memory low (Nat.le_refl _) h.apart
      refine finish (r, u) space apart fun k i e live inside there => ?_
      have below := h.space.page_below rfl (show (s.proc.ommap k).va + i < s.proc.sz by
        have := (h.space.inside k live).2
        omega)
      rw [loop.outside low (Nat.le_refl _) (.inl below)] at there
      exact ⟨there, mem _ e (user k i live inside) below there⟩
  | @shrink x neg freed =>
    obtain ⟨r, u⟩ := x
    by_cases less : brk s.proc n < s.proc.sz
    · have low := (calm neg less).1
      obtain ⟨apart, mem⟩ := deallocuvm_memory low h.apart freed
      refine finish (r, u) space apart fun k i e live inside there => ?_
      have before := (deallocuvm_freed low freed).entry_some there
      exact ⟨before, mem _ e (user k i live inside) there⟩
    · unfold deallocuvm at freed
      rw [if_pos (by omega)] at freed
      cases freed
      exact finish _ space h.apart (unchanged _ rfl)

theorem ReadInv.mmap (h : ReadInv s stored) {fd : Int} {addr : Nat} {r : Int}
    (aligned : s.proc.sz % PGSIZE = 0) (pointer : addr + 4 ≤ KERNBASE)
    (low : ∀ ip ∈ mapInode s fd, s.proc.sz + (s.fs.inode ip).size ≤ KERNBASE - PGSIZE)
    (done : mmap s fd addr = .ok (r, t)) :
    ReadInv t (if r = 0 then (wordBytes addr s.proc.sz).foldl markStored
      fun a => decide (a < s.proc.sz) && stored a else stored) := by
  cases mmap_mapping done with
  | fail failed =>
    rw [if_neg failed]
    exact h
  | @map _ i f ip opened inode free made =>
    have fits := low ip (by simp [mapInode, opened, inode])
    refine (h.addMmap inode aligned fits).puts (fun p mem => ?_) made
    obtain ⟨j, small, rfl⟩ := List.mem_map.mp mem
    have := List.mem_range.mp small
    omega

end Steps

theorem ReadInv.step {s t : Reading} {a : ReadingAct} (h : ReadInv s.vm s.stored)
    (legal : a.Legal s) (calm : a.Calm s) (done : s.step a = .ok t) : ReadInv t.vm t.stored := by
  cases a with
  | sbrk n =>
    obtain ⟨⟨r, w⟩, grown, eq⟩ := bind_ok.mp done
    cases eq
    exact h.growproc calm grown
  | mmap fd addr =>
    obtain ⟨aligned, pointer, low⟩ := calm
    obtain ⟨⟨r, w⟩, mapped, eq⟩ := bind_ok.mp done
    have inv := h.mmap aligned pointer low mapped
    dsimp only at eq
    split at eq
    · rename_i zero
      cases eq
      rwa [if_pos zero] at inv
    · rename_i failed
      cases eq
      rwa [if_neg failed] at inv
  | load a =>
    obtain ⟨⟨b, w⟩, loaded, eq⟩ := bind_ok.mp done
    cases eq
    exact h.load legal.2 loaded
  | store a b =>
    obtain ⟨⟨ok, w⟩, made, eq⟩ := bind_ok.mp done
    cases eq
    exact h.store legal.2 made

def ReadingStart (s : Reading) : Prop := Started s.vm ∧ s.vm.uvm.Apart

theorem ReadInv.start {s : Reading} (h : ReadingStart s) : ReadInv s.vm s.stored := by
  obtain ⟨⟨image, none⟩, apart⟩ := h
  refine ⟨.afterExec image none, apart, fun k live => absurd live (none k), ?_, ?_⟩
  · intro k f ip file
    exact absurd (live_of_pfile file) (none k)
  · intro k f ip i e file
    exact absurd (live_of_pfile file) (none k)

/-- There is memory for the page of a and for its page table, as far as they are missing. -/
def Vm.RoomFor (s : Vm) (a : Nat) : Prop :=
  (s.entry (a / PGSIZE)).isSome ∨ s.proc.pgdir.tableNeed a + 1 ≤ s.kmem.freelist.length

instance Vm.decidableRoomFor (s : Vm) (a : Nat) : Decidable (s.RoomFor a) :=
  inferInstanceAs (Decidable (_ ∨ _))

section Served
variable {s : Vm} {stored : Nat → Bool} {k : Fin MAXMAPPEDFILES} {f : Fin NFILE}
  {ip : Fin NINODE} {a i : Nat}

theorem allocuvm_one {u : Uvm} (aligned : a % PGSIZE = 0) (low : a + PGSIZE < KERNBASE)
    (absent : u.pgdir.entry (a / PGSIZE) = none)
    (room : u.pgdir.tableNeed a + 1 ≤ u.kmem.freelist.length) :
    ∃ u', allocuvm u a ((a + PGSIZE) % 2 ^ 32) = .ok (a + PGSIZE, u') ∧
      (u'.pgdir.entry (a / PGSIZE)).isSome := by
  have word : (a + PGSIZE) % 2 ^ 32 = a + PGSIZE := by
    simp only [KERNBASE] at low
    omega
  have here : a / PGSIZE * PGSIZE = a := by
    simp only [PGSIZE] at aligned ⊢
    omega
  have need : u.pgdir.need a (a + PGSIZE) = u.pgdir.tableNeed a + 1 := by
    unfold PgDir.need PDX
    simp only [PGSIZE, NPTENTRIES] at aligned ⊢
    rw [if_pos (by omega)]
    omega
  obtain ⟨u', loop⟩ : ∃ u', allocuvmLoop (NPAGES + 1) u a a (a + PGSIZE) =
      .ok (a + PGSIZE, u') := by
    apply allocuvmLoop_returns low aligned (by omega) _ (Nat.add_le_add_left (by decide) a)
    intro v lo hi
    obtain rfl : v = a / PGSIZE := by
      simp only [PGSIZE] at aligned lo hi ⊢
      omega
    exact absent
  refine ⟨u', ?_, ?_⟩
  · unfold allocuvm
    rw [word, if_neg (by omega), if_neg (by omega), PGROUNDUP_aligned aligned (by omega)]
    exact loop
  · obtain ⟨-, covers⟩ := allocuvmLoop_room low aligned (by omega) loop
    exact covers.range _ (by omega) (by rw [here]; exact Nat.lt_add_of_pos_right (by decide))

theorem ReadInv.served (h : ReadInv s stored) (file : (s.proc.ommap k).pfile = some f)
    (readable : s.fs.Readable f ip) (within : InMapping s.proc k a)
    (absent : s.entry (a / PGSIZE) = none)
    (room : s.proc.pgdir.tableNeed a + 1 ≤ s.kmem.freelist.length) :
    ∃ t, trap s a true = .ok t ∧ t.proc.killed = s.proc.killed ∧ (t.entry (a / PGSIZE)).isSome := by
  have live := within.1
  obtain ⟨aligned, low⟩ := h.place k live
  obtain ⟨lower, upper⟩ := (h.inMapping live).mp within
  have start := (h.space.inside k live).1
  have size := h.size k f ip file readable.inode
  have window : ¬(s.proc.sstack ≤ a ∧ a < (s.proc.sstack + MAXSTACKPAGES * PGSIZE) % 2 ^ 32) := by
    have := Nat.mod_le (s.proc.sstack + MAXSTACKPAGES * PGSIZE) (2 ^ 32)
    omega
  have found : mmapin s.proc.ommap a = some k := by
    cases search : mmapin s.proc.ommap a with
    | none =>
      have missed := List.find?_eq_none.mp search k (List.mem_finRange k)
      exact absurd (by simpa [InMapping, and_assoc] using within) missed
    | some j =>
      have other := mmapin_some search
      rw [h.same_page other.1 live ((h.inMapping other.1).mp other) ⟨lower, upper⟩ rfl]
  have base : PGROUNDDOWN a % PGSIZE = 0 := Nat.mul_mod_left _ _
  have index : PGROUNDDOWN a / PGSIZE = a / PGSIZE := Nat.mul_div_cancel _ (by decide)
  have bounds : (s.proc.ommap k).va ≤ PGROUNDDOWN a ∧ PGROUNDDOWN a ≤ a ∧
      PGROUNDDOWN a + PGSIZE < KERNBASE := by
    unfold PGROUNDDOWN
    simp only [PGSIZE, KERNBASE] at aligned low ⊢
    omega
  have need : s.proc.pgdir.tableNeed (PGROUNDDOWN a) = s.proc.pgdir.tableNeed a := by
    unfold PgDir.tableNeed PDX
    rw [index]
  obtain ⟨u, grown, there⟩ := allocuvm_one (u := s.uvm) base bounds.2.2
    (show s.entry (PGROUNDDOWN a / PGSIZE) = none by rw [index]; exact absent)
    (show s.proc.pgdir.tableNeed _ + 1 ≤ _ by rw [need]; exact room)
  obtain ⟨e, present⟩ := Option.isSome_iff_exists.mp there
  obtain ⟨fs, bytes, -, filled, -⟩ := loadMapped_bytes (s := s.setUvm u) file readable bounds.1
    (by omega) (show _ < (s.fs.inode ip).size by omega) present
  refine ⟨Vm.fill { s.setUvm u with fs := fs } (PGROUNDDOWN a / PGSIZE) e bytes, ?_, rfl, ?_⟩
  · unfold trap
    rw [if_neg window, found]
    dsimp only
    rw [grown, ok_bind]
    rw [if_neg (by simp only [PGSIZE]; omega), filled]
  · rw [← index, Vm.fill_entry (s := { s.setUvm u with fs := fs }) present, update_self]
    rfl

theorem ReadInv.shows (h : ReadInv s stored) (file : (s.proc.ommap k).pfile = some f)
    (readable : s.fs.Readable f ip) (inside : i < (s.proc.ommap k).sz)
    (clean : stored ((s.proc.ommap k).va + i) = false) (alive : s.proc.killed = false)
    (room : s.RoomFor ((s.proc.ommap k).va + i)) :
    ∃ t, s.load ((s.proc.ommap k).va + i) = .ok (some ((s.fs.inode ip).data i), t) := by
  have live := live_of_pfile file
  have low := (h.place k live).2
  have passes : ∀ {t : Vm} {e : Pte}, t.entry (((s.proc.ommap k).va + i) / PGSIZE) = some e →
      e.user = true → t.admits ((s.proc.ommap k).va + i) false true = some e := by
    intro t e there mode
    unfold Vm.admits
    rw [there]
    simp [Pte.admits, mode]
  cases there : s.entry (((s.proc.ommap k).va + i) / PGSIZE) with
  | some e =>
    obtain ⟨mode, byte⟩ := h.shown k f ip i e file readable inside clean there
    refine ⟨s, ?_⟩
    unfold Vm.load Vm.access
    rw [passes there mode]
    dsimp only [ok_bind]
    rw [byte]
  | none =>
    have within : InMapping s.proc k ((s.proc.ommap k).va + i) :=
      (h.inMapping live).mpr ⟨Nat.le_add_right _ _, by omega⟩
    have free := room.resolve_left (by simp [there])
    obtain ⟨t, trapped, still, present⟩ := h.served file readable within there free
    have below : (s.proc.ommap k).va + i < KERNBASE := by omega
    have fault := trap_faulted (below.trans (by decide)) trapped
    obtain ⟨e, found⟩ := Option.isSome_iff_exists.mp present
    obtain ⟨mode, byte⟩ := fault.brings h file readable inside there found
    have missing : s.admits ((s.proc.ommap k).va + i) false true = none := by
      unfold Vm.admits
      rw [there]
      rfl
    refine ⟨t, ?_⟩
    unfold Vm.load Vm.access
    rw [missing]
    rw [trapped, ok_bind, still, alive, passes found mode]
    rw [Bool.and_false, if_neg (by decide), ok_bind]
    dsimp only
    rw [byte]

end Served

/-- The process of image, where the open file holds 1, 2, 3 and so on. -/
def counting : Reading where
  vm := { image with fs := { image.fs with
    inode := fun _ => { size := 100, data := fun j => UInt8.ofNat (j + 1) } } }

theorem counting_start : ReadingStart counting := by
  have owned : ∀ {v f}, counting.vm.uvm.pgdir.owner v = some f → (v = 0 ∨ v = 9) ∧
      f = 0x300 + v := by
    intro v f h
    change imagePgdir.owner v = some f at h
    unfold PgDir.owner at h
    split at h
    · rename_i user
      by_cases text : v = 0 ∨ v = 9
      · rcases text with rfl | rfl <;> cases h <;> decide
      · rw [imagePgdir_user user (not_or.mp text)] at h
        cases h
    · cases h
  refine ⟨image_started, ?_, ?_, by decide⟩
  · intro v w f hv hw
    have := owned hv
    have := owned hw
    omega
  · intro v f hv mem
    have := owned hv
    change f ∈ [0x900, 0x901, 0x902] at mem
    simp only [List.mem_cons, List.not_mem_nil, or_false] at mem
    omega

def Vm.loads (s : Vm) (a : Nat) (b : UInt8) : Bool :=
  match s.load a with
  | .ok (r, _) => decide (r = some b)
  | .error _ => false

theorem Vm.loads_iff {s : Vm} {a : Nat} {b : UInt8} :
    s.loads a b = true ↔ ∃ t, s.load a = .ok (some b, t) := by
  unfold Vm.loads
  split
  · rename_i r t loaded
    rw [decide_eq_true_eq, loaded]
    constructor
    · rintro rfl
      exact ⟨t, rfl⟩
    · rintro ⟨w, same⟩
      cases same
      rfl
  · rename_i failed
    rw [failed]
    constructor
    · intro h
      cases h
    · rintro ⟨t, h⟩
      cases h

end MmapXv6
