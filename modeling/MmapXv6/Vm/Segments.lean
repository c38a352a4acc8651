import MmapXv6.Vm.Atomic

/-! The segments of a program file, page by page. Which pages loaduvm reaches, whether it
finds their page tables and whether it reads all of them is read off the program header,
the file and the tables that are there; and so is whether exec comes to a segment. -/
namespace MmapXv6

open Lib (bind_ok word)

def Proghdr.page (ph : Proghdr) (j : Nat) : Nat := (ph.vaddr + j * PGSIZE) % 2 ^ 32

/-- The offset in the file of a page of the segment, and its bytes from the file. -/
def Proghdr.pageOff (ph : Proghdr) (j : Nat) : Nat := (ph.off + j * PGSIZE) % 2 ^ 32

def Proghdr.pageLen (ph : Proghdr) (j : Nat) : Nat := min (ph.filesz - j * PGSIZE) PGSIZE

/-- Whether the read of a page gets all of it, and whether it gets anything. -/
def Inode.readsPage (ip : Inode) (ph : Proghdr) (j : Nat) : Bool :=
    ip.reads (ph.pageOff j) (ph.pageLen j)

def Inode.readsSome (ip : Inode) (ph : Proghdr) (j : Nat) : Bool :=
  decide (ph.pageOff j < ip.size) && decide (ph.pageOff j ≤ (ph.pageOff j + ph.pageLen j) % 2 ^ 32)

/-- loaduvm comes to the read of page j, so that every page up to j has a page table. -/
def Inode.comesTo (ip : Inode) (ph : Proghdr) (has : Nat → Bool) (j : Nat) : Prop :=
  (∀ k ≤ j, has (PDX (ph.page k)) = true) ∧ ∀ k < j, ip.readsPage ph k = true

/-- No page of the segment that loaduvm comes to lacks its page table. -/
def Inode.safe (ip : Inode) (ph : Proghdr) (_ : Nat) (has : Nat → Bool) : Prop :=
  ph.vaddr % PGSIZE = 0 ∧ ∀ j < pagesTo 0 ph.filesz, (∀ k < j, ip.readsPage ph k = true) →
    has (PDX (ph.page j)) = true

def Inode.loads (ip : Inode) (ph : Proghdr) (has : Nat → Bool) : Prop :=
  ph.vaddr % PGSIZE = 0 ∧ ∀ j < pagesTo 0 ph.filesz, has (PDX (ph.page j)) = true ∧
    ip.readsPage ph j = true

/-- What holds of each segment that exec comes to, with the size of the image and the
page tables after the segment's memory is allocated. -/
def eachSegment (holds : Proghdr → Nat → (Nat → Bool) → Prop) (ip : Inode) :
    Nat → Nat → Nat → Acct → Prop
  | 0, _, _, _ => True
  | n + 1, off, sz, A =>
    let ph := ip.header off
    let next := (off + PROGHDRSIZE) % 2 ^ 32
    ip.reads off PROGHDRSIZE = true →
      if ph.type ≠ ELFPROGLOAD then eachSegment holds ip n next sz A
      else ph.filesz ≤ ph.memsz →
        match A.allocuvm sz ph.end_ with
        | none => True
        | some (size, B) => size ≠ 0 → holds ph size B.has ∧
            (ip.loads ph B.has → eachSegment holds ip n next size B)

section Each
variable {holds : Proghdr → Nat → (Nat → Bool) → Prop} {ip : Inode}
  {n off sz size : Nat} {A B : Acct}

theorem eachSegment_unread (no : ip.reads off PROGHDRSIZE = false) :
    eachSegment holds ip (n + 1) off sz A := by
  intro yes
  rw [no] at yes
  cases yes

theorem eachSegment_skip (read : ip.reads off PROGHDRSIZE = true)
    (other : (ip.header off).type ≠ ELFPROGLOAD) :
    eachSegment holds ip (n + 1) off sz A ↔
      eachSegment holds ip n ((off + PROGHDRSIZE) % 2 ^ 32) sz A := by
  rw [eachSegment]
  rw [if_pos other]
  exact ⟨fun h => h read, fun h _ => h⟩

theorem eachSegment_wrong (load : (ip.header off).type = ELFPROGLOAD)
    (less : (ip.header off).memsz < (ip.header off).filesz) :
      eachSegment holds ip (n + 1) off sz A := by
  rw [eachSegment]
  rw [if_neg (not_not.mpr load)]
  exact fun _ le => absurd less (Nat.not_lt.mpr le)

theorem eachSegment_full (load : (ip.header off).type = ELFPROGLOAD)
    (plan : ∀ size B, A.allocuvm sz (ip.header off).end_ = some (size, B) → size = 0) :
    eachSegment holds ip (n + 1) off sz A := by
  rw [eachSegment]
  rw [if_neg (not_not.mpr load)]
  intro _ _
  split
  · trivial
  · exact fun served => absurd (plan _ _ ‹_›) served

theorem eachSegment_load (able : loadable ip off)
    (plan : A.allocuvm sz (ip.header off).end_ = some (size, B)) (served : size ≠ 0) :
    eachSegment holds ip (n + 1) off sz A ↔ holds (ip.header off) size B.has ∧
      (ip.loads (ip.header off) B.has →
        eachSegment holds ip n ((off + PROGHDRSIZE) % 2 ^ 32) size B) := by
  rw [eachSegment]
  rw [if_neg (not_not.mpr able.2.1), plan]
  exact ⟨fun h => h able.1 able.2.2 served, fun h _ _ _ => h⟩

end Each

section Load
variable {u w : Uvm} {ip : Inode} {ph : Proghdr}

theorem readi_plain (plain : ip.type ≠ .dev) (off n : Nat) :
    ∃ r b, readi ip off n = .ok (r, b) := by
  unfold readi
  rw [if_neg plain]
  split <;> exact ⟨_, _, rfl⟩

theorem readi_some {off n : Nat} {r : Int} {b : Lib.Bytes} (pos : 0 < n)
    (read : readi ip off n = .ok (r, b)) : 0 < r ↔ off < ip.size ∧ off ≤ (off + n) % 2 ^ 32 := by
  unfold readi at read
  split at read
  · cases read
  · split at read
    · cases read
      omega
    · have size : (if ip.size < off + n then ip.size - off else n) = min n (ip.size - off) := by
        split <;> omega
      rw [size] at read
      cases read
      omega

theorem page_onto {m : Nat} (index : m < NPDENTRIES) (aligned : ph.vaddr % PGSIZE = 0)
    (word : ph.vaddr < 2 ^ 32) : ∃ k < NPAGES, PDX (ph.page k) = m := by
  refine ⟨(m * (NPTENTRIES * PGSIZE) + 2 ^ 32 - ph.vaddr) % 2 ^ 32 / PGSIZE, ?_, ?_⟩
  · simp only [NPAGES, NPDENTRIES, NPTENTRIES, PGSIZE] at index ⊢
    omega
  · unfold PDX Proghdr.page
    simp only [NPDENTRIES, NPTENTRIES, PGSIZE] at index aligned ⊢
    omega

variable {n j m : Nat}

theorem loaduvmLoop_pass (plain : ip.type ≠ .dev) (below : j * PGSIZE < ph.filesz) (n : Nat)
    (u : Uvm) : ∃ k : Kmem, k.freelist = u.kmem.freelist ∧
      loaduvmLoop ph.vaddr ip ph.off ph.filesz (n + 1) u (j * PGSIZE) =
        if u.pgdir.has (PDX (ph.page j)) = true then
          if ip.readsPage ph j = true then
            loaduvmLoop ph.vaddr ip ph.off ph.filesz n ⟨u.pgdir, k⟩ ((j * PGSIZE + PGSIZE) % 2 ^ 32)
          else .ok (-1, ⟨u.pgdir, k⟩)
        else .error .loaduvmNoPte := by
  have len : (if ph.filesz - j * PGSIZE < PGSIZE then ph.filesz - j * PGSIZE else PGSIZE) =
      ph.pageLen j := by
    unfold Proghdr.pageLen
    split <;> omega
  obtain ⟨r, b, read⟩ := readi_plain plain (ph.pageOff j) (ph.pageLen j)
  have whole := readi_reads read
  refine ⟨(u.put (pteAddr (u.pgdir.pte (ph.page j / PGSIZE))) r b).kmem, rfl, ?_⟩
  rw [loaduvmLoop, loaduvmLoopWith, if_pos below]
  dsimp only
  rw [walkpgdir_noalloc, len, show (ph.vaddr + j * PGSIZE) % 2 ^ 32 = ph.page j from rfl,
    show (ph.off + j * PGSIZE) % 2 ^ 32 = ph.pageOff j from rfl]
  by_cases table : (u.pgdir.tab (PDX (ph.page j))).isSome
  · rw [if_pos table, if_pos (show u.pgdir.has (PDX (ph.page j)) = true from table)]
    dsimp only
    rw [read, Lib.ok_bind]
    by_cases all : ip.readsPage ph j = true
    · rw [if_pos all, if_neg (not_not.mpr (whole.mpr all))]
      rfl
    · rw [if_neg all, if_pos fun same => all (whole.mp same)]
      rfl
  · rw [if_neg table, if_neg (show ¬u.pgdir.has (PDX (ph.page j)) = true from table)]

theorem page_next_word (index : m < NPDENTRIES) (bare : u.pgdir.has m = false)
    (aligned : ph.vaddr % PGSIZE = 0) (word : ph.vaddr < 2 ^ 32)
    (seen : ∀ k ≤ j, u.pgdir.has (PDX (ph.page k)) = true) :
    (j * PGSIZE + PGSIZE) % 2 ^ 32 = (j + 1) * PGSIZE := by
  obtain ⟨k, less, onto⟩ := page_onto index aligned word
  have few : j < k := by
    by_contra le
    have := seen k (by omega)
    rw [onto, bare] at this
    cases this
  simp only [NPAGES, NPDENTRIES, NPTENTRIES, PGSIZE] at less ⊢
  omega

theorem loaduvmLoop_returns (plain : ip.type ≠ .dev) (index : m < NPDENTRIES)
    (bare : u.pgdir.has m = false)
    (aligned : ph.vaddr % PGSIZE = 0) (word : ph.vaddr < 2 ^ 32)
    (seen : ∀ k < j, u.pgdir.has (PDX (ph.page k)) = true) (fuel : ph.filesz ≤ (j + n) * PGSIZE) :
    (∃ r w, loaduvmLoop ph.vaddr ip ph.off ph.filesz (n + 1) u (j * PGSIZE) = .ok (r, w)) ↔
      ∀ k, j ≤ k → k * PGSIZE < ph.filesz → (∀ l, j ≤ l → l < k → ip.readsPage ph l = true) →
        u.pgdir.has (PDX (ph.page k)) = true := by
  induction n generalizing j u with
  | zero =>
    rw [Nat.add_zero] at fuel
    rw [loaduvmLoop, loaduvmLoopWith, if_neg (by omega)]
    refine ⟨fun _ k from_ below => absurd below ?_, fun _ => ⟨_, _, rfl⟩⟩
    have := Nat.mul_le_mul_right PGSIZE from_
    omega
  | succ n ih =>
    by_cases below : j * PGSIZE < ph.filesz
    · obtain ⟨kmem, -, pass⟩ := loaduvmLoop_pass plain below (n + 1) u
      rw [pass]
      by_cases table : u.pgdir.has (PDX (ph.page j)) = true
      · have seen' : ∀ k ≤ j, u.pgdir.has (PDX (ph.page k)) = true := by
          intro k le
          rcases Nat.lt_or_eq_of_le le with less | rfl
          · exact seen k less
          · exact table
        rw [if_pos table, page_next_word index bare aligned word seen']
        by_cases all : ip.readsPage ph j = true
        · rw [if_pos all]
          have rest := ih (u := ⟨u.pgdir, kmem⟩) (j := j + 1) bare
            (fun k less => seen' k (by omega))
            (by rw [show j + 1 + n = j + (n + 1) by omega]; exact fuel)
          rw [rest]
          refine ⟨fun h k from_ low before => ?_, fun h k from_ low before => ?_⟩
          · rcases Nat.eq_or_lt_of_le from_ with rfl | less
            · exact table
            · exact h k less low fun l ge lt => before l (by omega) lt
          · refine h k (by omega) low fun l ge lt => ?_
            rcases Nat.eq_or_lt_of_le ge with rfl | less
            · exact all
            · exact before l less lt
        · rw [if_neg all]
          refine ⟨fun _ k from_ low before => ?_, fun _ => ⟨_, _, rfl⟩⟩
          rcases Nat.eq_or_lt_of_le from_ with rfl | less
          · exact table
          · exact absurd (before j (Nat.le_refl _) less) all
      · rw [if_neg table]
        exact ⟨nofun,
          fun h => absurd (h j (Nat.le_refl _) below fun l ge lt => absurd lt (by omega)) table⟩
    · rw [loaduvmLoop, loaduvmLoopWith, if_neg below]
      refine ⟨fun _ k from_ low => absurd low fun less => below ?_, fun _ => ⟨_, _, rfl⟩⟩
      exact Nat.lt_of_le_of_lt (Nat.mul_le_mul_right PGSIZE from_) less

theorem lt_pagesTo {n : Nat} : j < pagesTo 0 n ↔ j * PGSIZE < n := by
  unfold pagesTo
  simp only [PGSIZE]
  omega

section Whole
variable (plain : ip.type ≠ .dev) (index : m < NPDENTRIES) (bare : u.pgdir.has m = false)
  (word : ph.vaddr < 2 ^ 32) (size : ph.filesz < 2 ^ 32)

include plain index bare word size

/-- loaduvm returns for a segment that starts a page and of which each page that it comes
to has a page table. -/
theorem loaduvm_returns (sz : Nat) : (∃ r w, loaduvm u ph.vaddr ip ph.off ph.filesz = .ok (r, w)) ↔
    ip.safe ph sz u.pgdir.has := by
  unfold loaduvm loaduvmWith Inode.safe
  by_cases aligned : ph.vaddr % PGSIZE = 0
  · rw [if_neg (not_not.mpr aligned)]
    have loop := loaduvmLoop_returns (n := NPAGES) (j := 0) plain index bare aligned word
      (fun k less => absurd less (Nat.not_lt_zero k))
      (by simp only [NPAGES, NPDENTRIES, NPTENTRIES, PGSIZE]; omega)
    rw [Nat.zero_mul] at loop
    refine loop.trans ⟨fun h => ⟨aligned, fun k less before => ?_⟩, fun h k _ low before => ?_⟩
    · exact h k (Nat.zero_le _) (lt_pagesTo.mp less) fun l _ less => before l less
    · exact h.2 k (lt_pagesTo.mpr low) fun l less => before l (Nat.zero_le _) less
  · rw [if_pos aligned]
    exact ⟨nofun, fun h => absurd h.1 aligned⟩

theorem loaduvm_loads : (∃ r w, loaduvm u ph.vaddr ip ph.off ph.filesz = .ok (r, w) ∧ ¬r < 0) ↔
    ip.loads ph u.pgdir.has := by
  have returns := loaduvm_returns plain index bare word size 0
  constructor
  · rintro ⟨r, w, done, served⟩
    have all : ip.readsAll ph.off ph.filesz :=
        not_not.mp (mt (loaduvm_reads (Nat.le_of_lt size) done).mpr served)
    obtain ⟨aligned, tables⟩ := returns.mp ⟨r, w, done⟩
    exact ⟨aligned, fun j less => ⟨tables j less fun l before => all l (by omega), all j less⟩⟩
  · rintro ⟨aligned, pages⟩
    obtain ⟨r, w, done⟩ := returns.mpr ⟨aligned, fun k less _ => (pages k less).1⟩
    refine ⟨r, w, done, fun failed => (loaduvm_reads (Nat.le_of_lt size) done).mp failed ?_⟩
    exact fun j less => (pages j less).2

end Whole

end Load

theorem loaduvm_acct {addr offset n : Nat} {ip : Inode} {u w : Uvm} {r : Int}
    (done : loaduvm u addr ip offset n = .ok (r, w)) : w.acct = u.acct := by
  obtain ⟨-, pgdir, free⟩ : Moves True True u w ∧ _ := loaduvm_moves 0 (.inl trivial) done
  unfold Uvm.acct
  rw [pgdir, free]

section Alloc
variable {u w : Uvm} {a oldsz newsz r : Nat}

theorem allocuvmLoop_total {n : Nat} (low : newsz < KERNBASE) (aligned : a % PGSIZE = 0)
    (valid : u.Valid)
    (absent : ∀ v, a ≤ v * PGSIZE → v * PGSIZE < newsz → u.pgdir.entry v = none)
    (fuel : newsz ≤ a + n * PGSIZE) : ∃ r w, allocuvmLoop (n + 1) u a oldsz newsz = .ok (r, w) := by
  induction n generalizing u a with
  | zero => exact ⟨_, _, by rw [allocuvmLoop, if_neg (by omega)]⟩
  | succ n ih =>
    rw [Nat.succ_mul] at fuel
    rw [allocuvmLoop]
    by_cases below : a < newsz
    · rw [if_pos below, word_next below (Nat.le_of_lt low)]
      cases taken : u.kmem.kalloc with
      | none =>
        have freed : ∃ r w, deallocuvm u newsz oldsz = .ok (r, w) :=
            deallocuvm_returns (Nat.le_of_lt low) valid
        obtain ⟨r, w, freed⟩ := freed
        rw [freed, Lib.ok_bind]
        exact ⟨_, _, rfl⟩
      | some p =>
        obtain ⟨mem, k⟩ := p
        have here : a / PGSIZE * PGSIZE = a := by
          simp only [PGSIZE] at aligned ⊢
          omega
        have high : a + PGSIZE ≤ 2 ^ 32 := by
          simp only [PGSIZE, KERNBASE] at low ⊢
          omega
        have hands := kalloc_hands taken fun _ => 0
        obtain ⟨⟨q, v⟩, mapped⟩ := mappages_ok (u := ⟨u.pgdir, k.memset mem 0⟩)
          (userPte mem) aligned high
          (absent _ (by omega) (by omega))
        dsimp only
        rw [mapped, Lib.ok_bind]
        cases mappages_maps (e := userPte mem) aligned (by omega) hands mapped with
        | done moves _ _ _ _ others =>
          refine ih (page_next aligned) ((moves False False).valid valid)
            (fun x ge lt => ?_) (by omega)
          rw [others x]
          · exact absent x (by omega) lt
          · rintro rfl
            simp only [PGSIZE] at ge here
            omega
        | none eq _ _ =>
          subst eq
          refine ih (page_next aligned) ?_ (fun x ge lt => absent x (by omega) lt) (by omega)
          have lost : Moves True False u ⟨u.pgdir, k.memset mem 0⟩ := .single (.lose trivial hands)
          exact lost.valid valid
    · exact ⟨_, _, by rw [if_neg below]⟩

theorem allocuvm_total (valid : u.Valid) (below : Below u.pgdir oldsz) (newsz : Nat) :
    ∃ r w, allocuvm u oldsz newsz = .ok (r, w) := by
  unfold allocuvm
  split
  · exact ⟨_, _, rfl⟩
  · split
    · exact ⟨_, _, rfl⟩
    · rename_i high less
      refine allocuvmLoop_total (by omega) (PGROUNDUP_mod oldsz) valid (fun v ge lt => ?_) ?_
      · refine below v ?_ (le_trans ?_ ge)
        · simp only [UPAGES, KERNBASE, PGSIZE] at high lt ⊢
          omega
        · rw [PGROUNDUP_eq (by simp only [KERNBASE] at high; omega)]
          omega
      · simp only [KERNBASE, NPAGES, NPDENTRIES, NPTENTRIES, PGSIZE] at high ⊢
        omega

def PgDir.Users (d : PgDir) : Prop := ∀ v, v < UPAGES → ∀ e, d.entry v = some e → e.user = true

theorem Allocs.users (h : Allocs oldsz newsz u a r w) (low : newsz < KERNBASE)
    (users : u.pgdir.Users) : w.pgdir.Users := by
  induction h with
  | stop _ => exact users
  | fail _ _ freed =>
    intro v user e there
    exact users v user e ((deallocuvm_freed (Nat.le_of_lt low) freed).entry_some there)
  | @page u v w a mem r k q _ _ _ _ mapped _ ih =>
    refine ih fun x user e there => ?_
    cases mapped with
    | none eq _ _ =>
      subst eq
      exact users x user e there
    | page _ entry _ _ _ =>
      rw [entry, Function.update_apply] at there
      split at there
      · cases there
        rfl
      · exact users x user e there

theorem allocuvm_users (users : u.pgdir.Users) (done : allocuvm u oldsz newsz = .ok (r, w)) :
    w.pgdir.Users := by
  rcases allocuvm_cases done with ⟨-, -, rfl⟩ | ⟨-, -, rfl⟩ | ⟨-, low, loop⟩
  · exact users
  · exact users
  · exact loop.users low users

theorem allocuvm_plan (done : allocuvm u oldsz newsz = .ok (r, w)) (served : r ≠ 0) :
    u.acct.allocuvm oldsz newsz = some (r, w.acct) := by
  have acct := allocuvm_acct done
  cases plan : u.acct.allocuvm oldsz newsz with
  | none =>
    rw [plan] at acct
    exact absurd acct served
  | some p =>
    obtain ⟨size, B⟩ := p
    rw [plan] at acct
    obtain ⟨rfl, rfl⟩ := acct
    rfl

theorem allocuvm_full (done : allocuvm u oldsz newsz = .ok (0, w)) (size : Nat) (B : Acct)
    (plan : u.acct.allocuvm oldsz newsz = some (size, B)) : size = 0 := by
  have acct := allocuvm_acct done
  rw [plan] at acct
  exact acct.1.symm

end Alloc

structure Image (k : Kmem) (u : Uvm) (sz : Nat) : Prop where
  small : sz < KERNBASE
  filled : Filled u sz
  below : Below u.pgdir sz
  users : u.pgdir.Users
  guarded : u.pgdir.Guarded
  valid : u.Valid
  bare : u.pgdir.has 600 = false
  pages : ∀ x, u.count x ≤ k.freelist.count x

namespace Image
variable {k : Kmem} {u v w : Uvm} {sz newsz r : Nat}

theorem start {d : PgDir} {k' : Kmem} (legal : k.Legal) (setup : setupkvm k = .ok (some d, k')) :
    Image k ⟨d, k'⟩ 0 := by
  have made := setupkvm_kvmMade legal.data setup
  have valid := legal.made made
  cases made with
  | some _ has user _ count _ _ _ =>
    refine ⟨by decide, fun v lt => absurd lt (Nat.not_lt_zero _), fun v low _ => user v low,
      fun v low e there => ?_, setupkvm_guarded setup, valid, has 600, fun x => (count x).le⟩
    rw [user v low] at there
    cases there

theorem grown (image : Image k u sz) (done : allocuvm u sz newsz = .ok (r, w)) (served : r ≠ 0) :
    Image k w r := by
  obtain ⟨-, small, -, below⟩ := allocuvm_below image.below image.small done served
  have moves : Moves _ False u w := allocuvm_moves done
  refine ⟨small, allocuvm_filled image.filled image.small done served, below,
    allocuvm_users image.users done, allocuvm_guarded image.guarded done, moves.valid image.valid,
    ?_, fun x => (moves.count_le x).trans (image.pages x)⟩
  by_cases low : newsz ≤ 600 * (NPTENTRIES * PGSIZE)
  · rw [allocuvm_has low done served]
    exact image.bare
  · rcases allocuvm_cases done with ⟨-, zero, -⟩ | ⟨-, -, rfl⟩ | ⟨-, less, -⟩
    · exact absurd zero served
    · exact image.bare
    · simp only [KERNBASE, NPTENTRIES, PGSIZE] at low less
      omega

theorem loaded {addr offset n : Nat} {ip : Inode} {q : Int} (image : Image k u sz)
    (done : loaduvm u addr ip offset n = .ok (q, w)) : Image k w sz := by
  obtain ⟨moves, pgdir, free⟩ : Moves True True u w ∧ _ := loaduvm_moves 0 (.inl trivial) done
  refine ⟨image.small, image.filled.same pgdir free, ?_, ?_, ?_, moves.valid image.valid, ?_,
    fun x => (moves.count_le x).trans (image.pages x)⟩
  all_goals rw [pgdir]
  · exact image.below
  · exact image.users
  · exact image.guarded
  · exact image.bare

theorem allocates (image : Image k u sz) (newsz : Nat) : ∃ r w, allocuvm u sz newsz = .ok (r, w) :=
  allocuvm_total image.valid image.below newsz

end Image

end MmapXv6
