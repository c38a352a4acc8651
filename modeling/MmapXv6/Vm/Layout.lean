import MmapXv6.Vm.Fault
import MmapXv6.Vm.Exec
import Mathlib.Order.CompletePartialOrder
import Mathlib.Order.Interval.Set.Disjoint

/-! The layout of one process's address space over whole runs. All of mmap, sbrk, the
stack window and the faults move or read the one field sz. The layout survives every
order of them except where sbrk shrinks the process over a part that is still in use,
or where an address computed from sz leaves the user's half. -/
namespace MmapXv6

open Lib (bind_ok Reaches)

variable {a addr v : Nat} {p : Proc} {r : Int} {s t : Vm} {u : Uvm}

/-- The mappings are apart and between the stack window and sz, no user page is above
sz, and so growproc has no page to remap. -/
structure Layout (s : Vm) : Prop where
  disjoint : ∀ i j, i ≠ j → Live s.proc i → Live s.proc j →
    Disjoint (Set.Ico (s.proc.ommap i).va ((s.proc.ommap i).va + (s.proc.ommap i).sz))
      (Set.Ico (s.proc.ommap j).va ((s.proc.ommap j).va + (s.proc.ommap j).sz))
  inside : ∀ i, Live s.proc i → s.proc.sstack + MAXSTACKPAGES * PGSIZE ≤ (s.proc.ommap i).va ∧
    (s.proc.ommap i).va + (s.proc.ommap i).sz ≤ s.proc.sz
  above : ∀ v, v * PGSIZE < KERNBASE → PGROUNDUP s.proc.sz ≤ v * PGSIZE → s.entry v = none
  noRemap : ∀ n, growproc s n ≠ .error .remap

inductive SpaceAct where
  | mmap (fd : Int) (addr : Nat)
  | munmap (addr : Nat)
  | sbrk (n : Int)
  | fork (slot : Proc)      -- the run goes on in the child
  | load (a : Nat)
  | store (a : Nat) (b : UInt8)
  | outside (kmem : Kmem) (fs : Fs) (ofile : Fin NOFILE → Option (Fin NFILE))
  -- whatever other processes do, and this one to its files

def spaceStep (s : Vm) : SpaceAct → Except Panic Vm
  | .mmap fd addr => do .ok (← mmap s fd addr).2
  | .munmap addr => do .ok (← munmap s addr).2
  | .sbrk n => do .ok (← growproc s n).2
  | .fork slot => do
    match ← fork s slot with
    | (none, s) => .ok s
    | (some child, s) => .ok { s with proc := child }
  | .load a => do .ok (← s.load a).2
  | .store a b => do .ok (← s.store a b true).2
  | .outside kmem fs ofile =>
    .ok { s with proc := { s.proc with ofile := ofile }, kmem := kmem, fs := fs }

/-- Addresses are 32 bits wide and n is an int. A slot that allocproc hands out was
left by exit, which unmaps everything. -/
def SpaceAct.Legal : SpaceAct → Prop
  | .mmap _ addr => addr + 4 ≤ 2 ^ 32
  | .munmap addr => addr < 2 ^ 32
  | .sbrk n => -2 ^ 31 ≤ n ∧ n < 2 ^ 31
  | .fork slot => ∀ i, (slot.ommap i).pfile = none
  | .load a => a < 2 ^ 32
  | .store a _ => a < 2 ^ 32
  | .outside .. => True

/-- The result of a mmap goes to user memory, and if it finds a file and an entry of the
table, the file has an inode, of a size such as required. The struct file of a pipe may
have none, and the kernel would take a word of user memory for the size. -/
def MapsFile (s : Vm) (fd : Int) (addr : Nat) (fits : Nat → Prop) : Prop :=
  addr + 4 ≤ KERNBASE ∧ ∀ f ∈ openFile s.proc fd, (freeMmap s.proc.ommap).isSome →
    ∃ ip ∈ (s.fs.file f).ip, fits (s.fs.inode ip).size

instance (s : Vm) (fd : Int) (addr : Nat) (fits : Nat → Prop) [DecidablePred fits] :
    Decidable (MapsFile s fd addr fits) := inferInstanceAs (Decidable (_ ∧ _))

theorem MapsFile.size {s : Vm} {fd : Int} {addr : Nat} {fits : Nat → Prop} {f : Fin NFILE}
    {ip : Fin NINODE} {i : Fin MAXMAPPEDFILES} (h : MapsFile s fd addr fits)
    (opened : openFile s.proc fd = some f) (inode : (s.fs.file f).ip = some ip)
    (free : (s.proc.ommap i).pfile = none) : fits (s.fs.inode ip).size := by
  have found : (freeMmap s.proc.ommap).isSome := by
    unfold freeMmap
    rw [List.find?_isSome]
    exact ⟨i, List.mem_finRange i, by rw [free]; rfl⟩
  obtain ⟨ip', there, holds⟩ := h.2 f opened found
  cases inode.symm.trans there
  exact holds

/-- What munmap frees lies in the user's half. Behind the other half are pages of the kernel
and of other processes. -/
def UnmapsUser (p : Proc) (addr : Nat) : Prop :=
  ∀ i, Live p i → (p.ommap i).va = addr → 2 * (p.ommap i).va + (p.ommap i).sz ≤ KERNBASE

instance (p : Proc) (addr : Nat) : Decidable (UnmapsUser p addr) :=
  inferInstanceAs (Decidable (∀ _, _))

/-- The steps under which the layout holds. A mapping must not wrap sz around, its
result must go to user memory, and what munmap frees must end in the user's half. A
process that shrinks must stay above its stack window and its live mappings, and the
first page given up must have its page table or start one. -/
def SpaceAct.Calm (s : Vm) : SpaceAct → Prop
  | .mmap fd addr => addr + 4 ≤ KERNBASE ∧
      ∀ ip ∈ mapInode s fd, s.proc.sz + (s.fs.inode ip).size + (PGSIZE - 1) < 2 ^ 32
  | .munmap addr => ∀ i, Live s.proc i → (s.proc.ommap i).va = addr →
      2 * (s.proc.ommap i).va + (s.proc.ommap i).sz ≤ KERNBASE
  | .sbrk n => n < 0 → brk s.proc n < s.proc.sz → s.proc.sz ≤ KERNBASE ∧
      (brk s.proc n ≠ 0 → s.proc.sstack + MAXSTACKPAGES * PGSIZE ≤ brk s.proc n ∧
        (∀ i, Live s.proc i → (s.proc.ommap i).va + (s.proc.ommap i).sz ≤ brk s.proc n) ∧
        ((s.proc.pgdir.tab (PDX (PGROUNDUP (brk s.proc n)))).isSome ∨
          PGROUNDUP (brk s.proc n) % (NPTENTRIES * PGSIZE) = 0))
  | _ => True

instance SpaceAct.decidableLegal (a : SpaceAct) : Decidable a.Legal :=
  match a with
  | .mmap _ addr => inferInstanceAs (Decidable (addr + 4 ≤ 2 ^ 32))
  | .munmap addr => inferInstanceAs (Decidable (addr < 2 ^ 32))
  | .sbrk n => inferInstanceAs (Decidable (-2 ^ 31 ≤ n ∧ n < 2 ^ 31))
  | .fork slot => inferInstanceAs (Decidable (∀ i, (slot.ommap i).pfile = none))
  | .load a => inferInstanceAs (Decidable (a < 2 ^ 32))
  | .store a _ => inferInstanceAs (Decidable (a < 2 ^ 32))
  | .outside .. => inferInstanceAs (Decidable True)

instance SpaceAct.decidableCalm (s : Vm) (a : SpaceAct) : Decidable (a.Calm s) := by
  cases a <;> dsimp only [SpaceAct.Calm] <;> infer_instance

structure SpaceInv (p : Proc) : Prop where
  stack : p.sstack + MAXSTACKPAGES * PGSIZE ≤ p.sz
  word : p.sz + (PGSIZE - 1) < 2 ^ 32
  order : Ordered p
  inside : ∀ i, Live p i → p.sstack + MAXSTACKPAGES * PGSIZE ≤ (p.ommap i).va ∧
    (p.ommap i).va + (p.ommap i).sz ≤ p.sz
  above : ∀ v, v < UPAGES → PGROUNDUP p.sz ≤ v * PGSIZE → p.pgdir.entry v = none

namespace SpaceInv

theorem roundup (h : SpaceInv p) :
    p.sz ≤ PGROUNDUP p.sz ∧ PGROUNDUP p.sz < p.sz + PGSIZE := by
  have := h.word
  unfold PGROUNDUP
  simp only [PGSIZE] at this ⊢
  omega

theorem page_below (h : SpaceInv p) (page : v = a / PGSIZE)
    (below : a < p.sz) : v * PGSIZE < PGROUNDUP p.sz := by
  have := h.roundup
  simp only [PGSIZE] at page this ⊢
  omega

theorem keep {q : Proc} (h : SpaceInv p) (sz : q.sz = p.sz) (sstack : q.sstack = p.sstack)
    (ommap : ∀ i, Live q i → q.ommap i = p.ommap i)
    (above : ∀ v, v < UPAGES → PGROUNDUP p.sz ≤ v * PGSIZE → q.pgdir.entry v = none) :
    SpaceInv q := by
  have live : ∀ i, Live q i → Live p i := fun i h => by
    unfold Live at h ⊢
    rw [← ommap i h]
    exact h
  constructor
  · rw [sz, sstack]
    exact h.stack
  · rw [sz]
    exact h.word
  · exact h.order.fewer fun i hi => ⟨live i hi, ommap i hi⟩
  · intro i hi
    rw [sz, sstack, ommap i hi]
    exact h.inside i (live i hi)
  · rw [sz]
    exact above

theorem paged (h : SpaceInv s.proc) (below : a < s.proc.sz)
    (paged : Paged s.uvm u (a / PGSIZE)) : SpaceInv (s.setUvm u).proc := by
  refine h.keep (q := (s.setUvm u).proc) rfl rfl (fun _ _ => rfl) fun v user high => ?_
  change u.pgdir.entry v = none
  rcases paged.entry with same | ⟨pa, added⟩
  · rw [same]
    exact h.above v user high
  · rw [added, Function.update_of_ne]
    · exact h.above v user high
    · intro page
      exact absurd (h.page_below page below) (by omega)

theorem fill (h : SpaceInv s.proc) {e : Pte} (there : s.entry v = some e)
    (page : Lib.Bytes) : SpaceInv (s.fill v e page).proc := by
  refine h.keep (q := (s.fill v e page).proc) rfl rfl (fun _ _ => rfl) fun w user high => ?_
  have none := h.above w user high
  have ne : w ≠ v := by
    rintro rfl
    change s.proc.pgdir.entry w = some e at there
    rw [none] at there
    cases there
  change (s.fill v e page).entry w = .none
  rw [Vm.fill_entry there, Function.update_of_ne ne]
  exact none

theorem loaded (h : SpaceInv s.proc) (loaded : Loaded s v t) :
    SpaceInv t.proc := by
  cases loaded with
  | nothing _ => exact h
  | @page fs e page _ there => exact SpaceInv.fill (s := { s with fs := fs }) h there page

theorem trapped (h : SpaceInv s.proc) {cr2 : Nat} {user : Bool}
    (trapped : Trapped s cr2 user t) : SpaceInv t.proc := by
  cases trapped with
  | killed _ => exact h.keep rfl rfl (fun _ _ => rfl) h.above
  | stack window paged =>
    apply h.paged _ paged
    have := h.stack
    have := window.2
    omega
  | mapped inside paged loaded =>
    apply (h.paged _ paged).loaded loaded
    have := (h.inside _ inside.1).2
    have := inside.2.2
    omega

theorem load (h : SpaceInv s.proc) {b : Option UInt8} (word : a < 2 ^ 32)
    (done : s.load a = .ok (b, t)) : SpaceInv t.proc := by
  rcases load_cases word done with rfl | fault
  · exact h
  · exact h.trapped fault

theorem store (h : SpaceInv s.proc) {b : UInt8} {user ok : Bool}
    (word : a < 2 ^ 32) (done : s.store a b user = .ok (ok, t)) : SpaceInv t.proc := by
  have accessed : ∀ {w : Vm}, s = w ∨ Trapped s a user w → SpaceInv w.proc := by
    rintro w (rfl | fault)
    · exact h
    · exact h.trapped fault
  cases store_stored word done with
  | killed _ fault => exact accessed (.inr fault)
  | done from_ there => exact (accessed from_).fill there _

theorem storeWord (h : SpaceInv s.proc) {w : Nat}
    (done : s.storeWord addr w = .ok t) : SpaceInv t.proc := by
  apply Lib.foldlM_ok (fun s : Vm => SpaceInv s.proc) _ _ _ _ h done
  intro s p t mem inv stored
  obtain ⟨⟨ok, x⟩, done, eq⟩ := bind_ok.mp stored
  cases eq
  obtain ⟨j, -, rfl⟩ := List.mem_map.mp mem
  exact inv.store (Nat.mod_lt _ (by decide)) done

theorem addMmap (h : SpaceInv s.proc) (i : Fin MAXMAPPEDFILES) (f : Fin NFILE)
    {size : Nat} (fits : s.proc.sz + size + (PGSIZE - 1) < 2 ^ 32) :
    SpaceInv (s.addMmap i f size).proc := by
  have new : (s.addMmap i f size).proc.sz = _ := addMmap_sz fits
  have stack := h.stack
  simp only [PGSIZE] at fits
  constructor
  · rw [new]
    change s.proc.sstack + _ ≤ _
    omega
  · rw [new]
    simp only [PGSIZE]
    omega
  · exact addMmap_ordered h.order fun k live => (h.inside k live).2
  · intro j hj
    rw [new]
    by_cases ej : j = i
    · subst ej
      rw [addMmap_self]
      exact ⟨stack, by dsimp only; omega⟩
    · have := h.inside j (addMmap_live hj ej)
      rw [addMmap_ne ej]
      exact ⟨this.1, by omega⟩
  · intro v user high
    apply h.above v user
    have := PGROUNDUP_eq (show (s.addMmap i f size).proc.sz + 4095 < 2 ^ 32 by rw [new]; omega)
    have := PGROUNDUP_eq (show s.proc.sz + 4095 < 2 ^ 32 by omega)
    omega

theorem mmap (h : SpaceInv s.proc) {fd : Int}
    (calm : SpaceAct.Calm s (.mmap fd addr)) (done : mmap s fd addr = .ok (r, t)) :
    SpaceInv t.proc := by
  cases mmap_mapping done with
  | fail _ => exact h
  | @map _ i f ip opened inode _ stored =>
    have fits := calm.2 ip (by simp [mapInode, opened, inode])
    exact (h.addMmap i f fits).storeWord stored

theorem munmap (h : SpaceInv s.proc)
    (calm : SpaceAct.Calm s (.munmap addr)) (done : munmap s addr = .ok (r, t)) :
    SpaceInv t.proc := by
  unfold MmapXv6.munmap at done
  split at done
  · cases done
    exact h
  · rename_i i found
    obtain ⟨-, live, rfl⟩ := mappingAt_some found
    split at done
    · cases done
      exact h
    · obtain ⟨t, unmapped, eq⟩ := bind_ok.mp done
      cases eq
      obtain ⟨w, _, u, -, proc, -, freed, rfl⟩ := munmapAt_cases unmapped
      have user := calm i live rfl
      have low : ((s.proc.ommap i).va +
          ((s.proc.ommap i).va + (s.proc.ommap i).sz) % 2 ^ 32) % 2 ^ 32 ≤ KERNBASE := by
        omega
      refine h.keep ?_ ?_ ?_ fun v above high => ?_
      · change w.proc.sz = s.proc.sz
        rw [proc]
      · change w.proc.sstack = s.proc.sstack
        rw [proc]
      · intro j hj
        obtain ⟨-, -, same⟩ := dropMmap_live hj
        rw [same]
        change w.proc.ommap j = _
        rw [proc]
      · exact (deallocuvm_freed low freed).entry_none (h.above v above high)

theorem resized (h : SpaceInv p) {sz : Nat} {d : PgDir}
    (stack : p.sstack + MAXSTACKPAGES * PGSIZE ≤ sz) (word : sz + (PGSIZE - 1) < 2 ^ 32)
    (inside : ∀ i, Live p i → (p.ommap i).va + (p.ommap i).sz ≤ sz)
    (above : ∀ v, v < UPAGES → PGROUNDUP sz ≤ v * PGSIZE → d.entry v = none) :
    SpaceInv { p with sz := sz, pgdir := d } :=
  ⟨stack, word, h.order, fun i hi => ⟨(h.inside i hi).1, inside i hi⟩, above⟩

theorem grow (h : SpaceInv s.proc) {newsz r : Nat}
    (done : allocuvm s.uvm s.proc.sz newsz = .ok (r, u)) :
    (r = 0 → SpaceInv (s.setUvm u).proc) ∧
    (r ≠ 0 → SpaceInv { s.proc with sz := r, pgdir := u.pgdir }) := by
  have word := h.word
  have same : SpaceInv (s.setUvm s.uvm).proc := h
  rcases allocuvm_cases done with ⟨-, rfl, rfl⟩ | ⟨-, rfl, rfl⟩ | ⟨le, low, loop⟩
  · exact ⟨fun _ => same, fun served => absurd rfl served⟩
  · exact ⟨fun _ => same, fun _ => h⟩
  have outside : ∀ v, v < UPAGES → PGROUNDUP s.proc.sz ≤ v * PGSIZE → newsz ≤ v * PGSIZE →
      u.pgdir.entry v = none := by
    intro v user high above
    rw [loop.outside low (Nat.le_refl _) (.inr above)]
    exact h.above v user high
  constructor
  · rintro rfl
    refine h.keep (q := (s.setUvm u).proc) rfl rfl (fun _ _ => rfl) fun v user high => ?_
    by_cases inside : v * PGSIZE < newsz
    · refine loop.failed low (Nat.le_refl _) word (.inr ⟨.inl rfl, ?_⟩) high inside
      intro w lo hi
      apply h.above w _ lo
      simp only [UPAGES, PGSIZE, KERNBASE] at hi low ⊢
      omega
    · exact outside v user high (by omega)
  · intro served
    obtain rfl : r = newsz := loop.result.resolve_left served
    have stack := h.stack
    have fits : r + 4095 < 2 ^ 32 := by
      simp only [KERNBASE] at low
      omega
    refine h.resized (by omega) fits (fun i hi => (h.inside i hi).2.trans le) ?_
    intro v user high
    have new := PGROUNDUP_eq fits
    have old := PGROUNDUP_eq word
    exact outside v user (by omega) (by omega)

theorem shrink (h : SpaceInv s.proc) {n : Int} (neg : n < 0) {r : Nat}
    (calm : SpaceAct.Calm s (.sbrk n))
    (done : deallocuvm s.uvm s.proc.sz (brk s.proc n) = .ok (r, u)) :
    (r = 0 → SpaceInv (s.setUvm u).proc) ∧
    (r ≠ 0 → SpaceInv { s.proc with sz := r, pgdir := u.pgdir }) := by
  have word := h.word
  by_cases less : brk s.proc n < s.proc.sz
  · obtain ⟨low, calm⟩ := calm neg less
    rcases deallocuvm_cases low done with ⟨ge, -⟩ | ⟨-, rfl, loop⟩
    · exact absurd less (by omega)
    have freed := loop.freed (PGROUNDUP_mod _)
    have above : ∀ v, v < UPAGES → PGROUNDUP s.proc.sz ≤ v * PGSIZE →
        u.pgdir.entry v = none := by
      intro v user high
      rcases freed.entry v with same | ⟨gone, -⟩
      · exact same.trans (h.above v user high)
      · exact gone
    constructor
    · intro _
      exact h.keep (q := (s.setUvm u).proc) rfl rfl (fun _ _ => rfl) above
    · intro served
      obtain ⟨stack, inside, table⟩ := calm served
      refine h.resized stack (by omega) inside fun v user high => ?_
      by_cases below : v * PGSIZE < s.proc.sz
      · exact loop.empty (PGROUNDUP_mod _) table high below
      · apply above v user
        have old := PGROUNDUP_eq word
        simp only [PGSIZE] at below ⊢
        omega
  · unfold deallocuvm at done
    rw [if_pos (by omega)] at done
    cases done
    exact ⟨fun _ => h, fun _ => h⟩

theorem growproc (h : SpaceInv s.proc) {n : Int}
    (calm : SpaceAct.Calm s (.sbrk n)) (done : growproc s n = .ok (r, t)) : SpaceInv t.proc := by
  have finish : ∀ {x : Nat × Uvm}, (x.1 = 0 → SpaceInv (s.setUvm x.2).proc) ∧
      (x.1 ≠ 0 → SpaceInv { s.proc with sz := x.1, pgdir := x.2.pgdir }) →
      SpaceInv (s.resized x).proc := by
    intro x both
    unfold Vm.resized
    split
    · exact both.1 ‹_›
    · exact both.2 ‹_›
  cases growproc_resizing done with
  | same => exact h
  | grow _ grown => exact finish (h.grow grown)
  | shrink neg freed => exact finish (h.shrink neg calm freed)

theorem noRemap (h : SpaceInv s.proc) (n : Int) :
    MmapXv6.growproc s n ≠ .error .remap := by
  intro failed
  unfold MmapXv6.growproc at failed
  split at failed
  · rcases Lib.bind_error.mp failed with grown | ⟨_, -, eq⟩
    · unfold allocuvm at grown
      split at grown
      · cases grown
      · split at grown
        · cases grown
        · refine allocuvmLoop_not_remap (by omega) (PGROUNDUP_mod _) ?_ grown
          intro v lo hi
          apply h.above v _ lo
          simp only [UPAGES, PGSIZE, KERNBASE] at *
          omega
    · cases eq
  · split at failed
    · rcases Lib.bind_error.mp failed with freed | ⟨_, -, eq⟩
      · exact deallocuvm_not_remap _ _ _ freed
      · cases eq
    · cases failed

theorem fork (h : SpaceInv s.proc) {slot : Proc} {d : PgDir} {k k' : Kmem}
    (unused : ∀ i, (slot.ommap i).pfile = none)
    (copied : copyuvm s.proc.pgdir k s.proc.sz = .ok (some d, k')) :
    SpaceInv (forkProc s.proc slot d) := by
  have word := h.word
  refine h.keep (q := forkProc s.proc slot d) rfl rfl (fun i live => ?_) fun v user high => ?_
  · by_cases parent : (s.proc.ommap i).pfile.isSome
    · exact if_pos parent
    · change ((if (s.proc.ommap i).pfile.isSome then s.proc.ommap i else slot.ommap i).pfile.isSome
        : Prop) at live
      rw [if_neg parent, unused i] at live
      cases live
  · apply copyuvm_user (by omega) copied user
    have := h.roundup
    omega

theorem step {a : SpaceAct} (h : SpaceInv s.proc) (legal : a.Legal) (calm : a.Calm s)
    (done : spaceStep s a = .ok t) : SpaceInv t.proc := by
  cases a with
  | mmap fd addr =>
    obtain ⟨x, mapped, eq⟩ := bind_ok.mp done
    cases eq
    exact h.mmap calm mapped
  | munmap addr =>
    obtain ⟨x, unmapped, eq⟩ := bind_ok.mp done
    cases eq
    exact h.munmap calm unmapped
  | sbrk n =>
    obtain ⟨x, grown, eq⟩ := bind_ok.mp done
    cases eq
    exact h.growproc calm grown
  | fork slot =>
    obtain ⟨⟨child, w⟩, forked, eq⟩ := bind_ok.mp done
    unfold MmapXv6.fork at forked
    split at forked
    · cases forked
      cases eq
      exact h
    · obtain ⟨⟨d, k⟩, copied, forked⟩ := bind_ok.mp forked
      cases d with
      | none =>
        obtain ⟨k, -, forked⟩ := bind_ok.mp forked
        cases forked
        cases eq
        exact h
      | some d =>
        cases forked
        cases eq
        exact h.fork legal copied
  | load a =>
    obtain ⟨x, loaded, eq⟩ := bind_ok.mp done
    cases eq
    exact h.load legal loaded
  | store a b =>
    obtain ⟨x, stored, eq⟩ := bind_ok.mp done
    cases eq
    exact h.store legal stored
  | outside kmem fs ofile =>
    cases done
    exact h.keep rfl rfl (fun _ _ => rfl) h.above

theorem afterExec (h : AfterExec p) (none : ∀ i, ¬Live p i) : SpaceInv p := by
  have low := h.low
  have size := h.size
  simp only [KERNBASE] at low
  refine ⟨by omega, by simp only [PGSIZE]; omega, fun i _ _ hi => absurd hi (none i),
    fun i hi => absurd hi (none i), fun v user high => h.below v user ?_⟩
  have := PGROUNDUP_eq (show p.sz + 4095 < 2 ^ 32 by omega)
  omega

theorem layout (h : SpaceInv s.proc) : Layout s := by
  constructor
  · intro i j ne hi hj
    rw [Set.disjoint_left]
    intro a ha hb
    have := h.order i j ne hi hj
    have := ha.1
    have := ha.2
    have := hb.1
    have := hb.2
    omega
  · exact h.inside
  · intro v low high
    apply h.above v _ high
    simp only [UPAGES, PGSIZE, KERNBASE] at low ⊢
    omega
  · exact h.noRemap

end SpaceInv

/-- A process that has just been given its image by exec, with no mapping left from
the image before. What exec leaves is the subject of exec_image. -/
def Started (s : Vm) : Prop := AfterExec s.proc ∧ ∀ i, ¬Live s.proc i

/-- The directory after exec of a program of one page: the text at 0, the top page of
the stack at 0x9000, and the kernel's half as setupkvm fills it. -/
def imagePgdir : PgDir where
  page := 0x400
  tab := fun i => if i = 0 ∨ 512 ≤ i ∧ i < 568 ∨ 1016 ≤ i then some (0x401 + i) else none
  pte := fun v =>
    if v = 0 ∨ v = 9 then some (userPte (0x300 + v))
    else if 0x80000 ≤ v ∧ v < 0x8E000 then some ⟨v - 0x80000, true, false, false⟩
    else if 0xFE000 ≤ v then some ⟨v, true, false, false⟩
    else none

theorem imagePgdir_user (user : v < UPAGES) (other : v ≠ 0 ∧ v ≠ 9) :
    imagePgdir.entry v = none := by
  have absent : imagePgdir.pte v = none := by
    unfold imagePgdir
    dsimp only
    simp only [UPAGES, KERNBASE, PGSIZE] at user
    rw [if_neg (by omega), if_neg (by omega), if_neg (by omega)]
  unfold PgDir.entry
  rw [absent, ite_self]

def image : Vm where
  proc := { sz := 0xA000, sstack := 0x2000, pgdir := imagePgdir, state := .running, pid := 3,
            ofile := fun fd => if fd = 0 then some 0 else none }
  kmem := { freelist := [0x900, 0x901, 0x902] }
  fs := { file := fun _ => ⟨.inode, true, true, some 0, 0⟩, inode := fun _ => { size := 100 } }

theorem image_started : Started image := by
  refine ⟨⟨by decide, by decide, by decide, ?_⟩, by decide⟩
  intro v user above
  change 0xA000 ≤ v * 4096 at above
  exact imagePgdir_user user (by omega)

def growthRemaps (s : Vm) : Bool :=
  match growproc s PGSIZE with
  | .error .remap => true
  | _ => false

theorem growthRemaps_iff : growthRemaps s = true ↔ growproc s PGSIZE = .error .remap := by
  unfold growthRemaps
  split
  · rename_i remap
    exact ⟨fun _ => remap, fun _ => rfl⟩
  · rename_i other
    exact ⟨fun h => absurd h Bool.false_ne_true, fun h => absurd h other⟩

end MmapXv6
