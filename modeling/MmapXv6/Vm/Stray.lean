import MmapXv6.Vm.Alloc
import MmapXv6.Vm.Args

/-! exec when page tables are bytes of memory. The stores of loaduvm go through the direct
map, and where a segment's end wraps around to 0 its start is what the file says: it can be
a page table of the directory that exec builds. -/
namespace MmapXv6

open Lib (ok_bind word)

/-- An entry as a word, with PTE_P, PTE_W, PTE_U and PTE_D. -/
def pteWord : Option Pte → Nat
  | none => 0
  | some e => e.pa * PGSIZE + 1 + e.writable.toNat * 2 + e.user.toNat * 4 + e.dirty.toNat * 64

/-- The entry of a word; without PTE_P the rest of the word is dropped. -/
def wordPte (w : Nat) : Option Pte :=
  if w % 2 = 1 then some ⟨w / PGSIZE, w.testBit 1, w.testBit 2, w.testBit 6⟩ else none

def PgDir.IsTable (d : PgDir) (x : Nat) : Prop := x = d.page ∨ ∃ i < NPDENTRIES, d.tab i = some x

instance (d : PgDir) (x : Nat) : Decidable (d.IsTable x) := by
  unfold PgDir.IsTable
  infer_instance

/-- Memory with the directory and its page tables in it. -/
def Uvm.bytes (u : Uvm) (x : Nat) : Lib.Bytes :=
  if x = u.pgdir.page then wordsAt fun i => pteWord ((u.pgdir.tab i).map userPte)
  else match (List.range NPDENTRIES).find? (u.pgdir.tab · = some x) with
    | some i => wordsAt fun j => pteWord (u.pgdir.pte (i * NPTENTRIES + j))
    | none => u.kmem.mem x

/-- What the walk finds from a directory page of memory. -/
def PgDir.ofBytes (mem : Nat → Lib.Bytes) (page : Nat) : PgDir :=
  let tab i := (wordPte (word (mem page) (4 * i))).map Pte.pa
  { page, tab
    pte := fun v => (tab (v / NPTENTRIES)).bind fun x =>
      wordPte (word (mem x) (4 * (v % NPTENTRIES))) }

/-- A store that can meet a page of the directory, which is then read again. -/
def Uvm.store (u : Uvm) (pa : Nat) (r : Int) (bytes : Lib.Bytes) : Uvm :=
  if 0 < r ∧ u.pgdir.IsTable pa then
    let w := Uvm.put { u with kmem := { u.kmem with mem := u.bytes } } pa r bytes
    { w with pgdir := .ofBytes w.kmem.mem u.pgdir.page }
  else u.put pa r bytes

section Agree
variable {u : Uvm} {k : Kmem} {ip : Inode} {s : Vm} {path : Path} {n sz off : Nat}

theorem loaduvmLoop_store {addr offset i : Nat}
    (away : ∀ va ∈ loaduvmStores u.pgdir addr ip offset sz n i,
      ¬u.pgdir.IsTable (pteAddr (u.pgdir.pte (va / PGSIZE)))) :
    loaduvmLoopWith Uvm.store addr ip offset sz n u i = loaduvmLoop addr ip offset sz n u i := by
  induction n generalizing u i with
  | zero => rfl
  | succ n ih =>
    unfold loaduvmLoop
    rw [loaduvmLoopWith, loaduvmLoopWith]
    rw [loaduvmStores] at away
    by_cases more : i < sz
    · rw [if_pos more] at away ⊢
      rw [if_pos more]
      dsimp only at away ⊢
      rw [walkpgdir_noalloc]
      by_cases table : (u.pgdir.tab (PDX ((addr + i) % 2 ^ 32))).isSome
      · rw [if_pos table] at away ⊢
        dsimp only
        cases read : readi ip ((offset + i) % 2 ^ 32)
            (if sz - i < PGSIZE then sz - i else PGSIZE) with
        | error e => rfl
        | ok p =>
          obtain ⟨r, b⟩ := p
          rw [read] at away
          dsimp only at away
          have same : u.store (pteAddr (u.pgdir.pte ((addr + i) % 2 ^ 32 / PGSIZE))) r b =
              u.put (pteAddr (u.pgdir.pte ((addr + i) % 2 ^ 32 / PGSIZE))) r b := by
            refine if_neg fun meets => away _ (List.mem_append_left _ ?_) meets.2
            rw [if_pos meets.1]
            exact List.mem_singleton_self _
          rw [ok_bind, ok_bind]
          dsimp only
          rw [same]
          by_cases short : r ≠ (if sz - i < PGSIZE then sz - i else PGSIZE : Nat)
          · rw [if_pos short, if_pos short]
          · rw [if_neg short, if_neg short]
            refine ih fun va mem => away va (List.mem_append_right _ ?_)
            rw [if_neg short]
            exact mem
      · rw [if_neg table]
    · rw [if_neg more, if_neg more]

theorem Image.not_table {v : Nat} {e : Pte} (image : Image k u sz) (once : k.freelist.Nodup)
    (user : v < UPAGES) (there : u.pgdir.entry v = some e) : ¬u.pgdir.IsTable e.pa := by
  have le : u.count e.pa ≤ 1 := (image.pages e.pa).trans (List.nodup_iff_count_le_one.mp once e.pa)
  have owned : 0 < (Lib.fibre (fun v : Fin UPAGES => u.pgdir.owner v) e.pa).card :=
    Lib.card_fibre_pos.mpr ⟨⟨v, user⟩, by simp [PgDir.owner, user, there]⟩
  unfold Uvm.count PgDir.count at le
  rintro (page | ⟨i, index, table⟩)
  · rw [if_pos page.symm] at le
    omega
  · have : 0 < (Lib.fibre (fun i : Fin NPDENTRIES => u.pgdir.tab i) e.pa).card :=
      Lib.card_fibre_pos.mpr ⟨⟨i, index⟩, table⟩
    omega

theorem loadSegments_store (plain : ip.type ≠ .dev) (once : k.freelist.Nodup) (image : Image k u sz)
    (confined : ∀ st ∈ segmentStores ip n off sz u, st.Confined k) :
    loadSegmentsWith Uvm.store ip n off sz u = loadSegments ip n off sz u := by
  induction n generalizing off sz u with
  | zero => rfl
  | succ n ih =>
    unfold loadSegments
    cases image.pass plain n off with
    | stop r _ _ loads => rw [loads, loads]
    | skip _ stores loads =>
      rw [loads, loads]
      exact ih image (stores ▸ confined)
    | load ph size v image' _ _ stores loads =>
      rw [loads, loads]
      rw [stores] at confined
      by_cases crooked : ph.vaddr % PGSIZE ≠ 0
      · unfold loaduvmWith
        rw [if_pos crooked, if_pos crooked]
        rfl
      rw [if_neg crooked] at confined
      have same : loaduvmWith Uvm.store v ph.vaddr ip ph.off ph.filesz =
          loaduvm v ph.vaddr ip ph.off ph.filesz := by
        unfold loaduvm loaduvmWith
        rw [if_neg crooked, if_neg crooked]
        refine loaduvmLoop_store fun va mem => ?_
        obtain ⟨low, e, there, -⟩ :=
          confined _ (List.mem_append_left _ (List.mem_map_of_mem (f := Store.mk v.pgdir) mem))
        rw [← v.pgdir.entry_of_table (PgDir.table_of_entry there), there]
        exact image'.not_table once (user_page low) there
      rw [same]
      change (loaduvm v _ ip _ _ >>= _) = (loaduvm v _ ip _ _ >>= _)
      cases done : loaduvm v ph.vaddr ip ph.off ph.filesz with
      | error e => rfl
      | ok p =>
        obtain ⟨q, w⟩ := p
        rw [done] at confined
        rw [ok_bind, ok_bind]
        dsimp only at confined ⊢
        by_cases failed : q < 0
        · rw [if_pos failed, if_pos failed]
        · rw [if_neg failed] at confined ⊢
          rw [if_neg failed]
          exact ih (image'.loaded done) fun st mem => confined st (List.mem_append_right _ mem)

/-- Where the loader stays inside the image, exec does what it does with page tables that
are no memory. -/
theorem exec_store {argv : List (List UInt8)} (legal : s.kmem.Legal) (once : s.kmem.freelist.Nodup)
    (plain : ∀ i, path.ip = some i → (s.fs.inode i).type ≠ .dev) (inside : StaysInside s path) :
    execWith Uvm.store s path argv = exec s path argv := by
  by_cases opened : ∃ i u, Opens s path i u
  · obtain ⟨i, u, opens⟩ := opened
    obtain ⟨entry, run⟩ := exec_opens argv (plain i opens.1) opens
    have confined := (loader_confined legal plain).mpr inside
    rw [execStores_opens (plain i opens.1) opens] at confined
    rw [exec, run, run, loadSegments_store (plain i opens.1) once (.start legal opens.2.2) confined]
    rfl
  · push Not at opened
    obtain ⟨r, run⟩ := exec_closed legal.data plain opened
    rw [exec, run, run]

end Agree

section Overwrite

/-- The second segment is the start of a page table, and begins where exec will have put that
of the image. -/
def overwriting : Inode :=
  elfFileWith [0x941007, 0, 0, 0, 0, 0, 0, 0, 0x941007, 0]
    [[1, 0, 0, 0, 0, 4096, 0, 0], [1, 116, 0x80942000, 0, 40, 0x7F6BE000, 0, 0]]

structure FreshDir (u : Uvm) : Prop where
  list : u.kmem.freelist = List.range' 0x941 15
  bare : u.pgdir.tab 0 = none
  apart : u.pgdir.page ≠ 0x942
  direct : ∃ e, u.pgdir.entry 0x80942 = some e ∧ e.pa = 0x942
  kend : u.kmem.kend = 0x115

theorem setupkvm_fresh : ∃ d k, setupkvm starting.kmem = .ok (some d, k) ∧ FreshDir ⟨d, k⟩ := by
  obtain ⟨d, k, setup, made⟩ := setupkvm_made (k := starting.kmem) (freelist_legal (by decide)).data
  cases made with
  | none short => exact absurd short (by decide)
  | @some d _ length has _ kernel count kend _ _ suffix direct =>
    have list : k.freelist = List.range' 0x941 15 := by
      rw [List.suffix_iff_eq_drop.mp suffix, length, Nat.add_sub_cancel_left]
      rfl
    refine ⟨d, k, setup, list, ?_, fun same => ?_, ?_, kend⟩
    · have := has 0
      unfold PgDir.has at this
      simpa [kernelTab] using this
    · have twice := count 0x942
      unfold Uvm.count PgDir.count at twice
      rw [if_pos same, list, show starting.kmem.freelist.count 0x942 = 1 by decide,
        show (List.range' 0x941 15).count 0x942 = 1 by decide] at twice
      omega
    · obtain ⟨e, there⟩ := Option.isSome_iff_exists.mp (kernel 0x80942 (by decide))
      exact ⟨e, there, direct 0x80942 e (by decide) there⟩

variable {u : Uvm}

theorem allocuvm_pass {w : Uvm} {p : Nat} (low : (p + 1) * PGSIZE < KERNBASE)
    (pass : ∀ n, allocuvmLoop (n + 1) u (p * PGSIZE) (p * PGSIZE) ((p + 1) * PGSIZE) =
      allocuvmLoop n w ((p + 1) * PGSIZE) (p * PGSIZE) ((p + 1) * PGSIZE)) :
    allocuvm u (p * PGSIZE) ((p + 1) * PGSIZE) = .ok ((p + 1) * PGSIZE, w) := by
  have up : PGROUNDUP (p * PGSIZE) = p * PGSIZE := by
    unfold PGROUNDUP
    simp only [PGSIZE, KERNBASE] at low ⊢
    omega
  have more : p * PGSIZE ≤ (p + 1) * PGSIZE := Nat.mul_le_mul_right _ (Nat.le_succ p)
  have last : endPage ((p + 1) * PGSIZE) ≤ p + 1 := by
    unfold endPage
    simp only [PGSIZE]
    omega
  obtain ⟨n, fuel⟩ : ∃ n, NPAGES = n + 1 := Nat.exists_eq_succ_of_ne_zero (by decide)
  unfold allocuvm
  rw [if_neg (Nat.not_le.mpr low), if_neg (Nat.not_lt.mpr more), up, pass, fuel,
    allocuvmLoop_end last]

def firstImage (u : Uvm) : Uvm := u.addPageTable 0 0x941 0x942 (List.range' 0x943 13)

theorem FreshDir.first (h : FreshDir u) : allocuvm u 0 4096 = .ok (4096, firstImage u) :=
  allocuvm_pass (p := 0) (by decide) fun _ =>
    allocuvmLoop_table (by decide) (by decide)
      (if_neg (by rw [show 0 / NPTENTRIES = 0 by decide, h.bare]; decide)) h.bare h.list

theorem FreshDir.second (h : FreshDir u) :
    loaduvmWith Uvm.store (firstImage u) 0x80942000 overwriting 116 40 =
      .ok (0, (firstImage u).store 0x942 40 fun j => overwriting.data (116 + j)) := by
  obtain ⟨e, there, pa⟩ := h.direct
  have table : ((firstImage u).pgdir.tab 514).isSome := PgDir.table_of_entry there
  have entry : (firstImage u).pgdir.pte 0x80942 = some e := by
    rw [← there]
    exact (u.pgdir.entry_of_table (v := 0x80942) table).symm
  unfold loaduvmWith
  rw [if_neg (by decide), loaduvmLoopWith, if_pos (by decide)]
  dsimp only
  rw [walkpgdir_noalloc, show PDX ((0x80942000 + 0) % 2 ^ 32) = 514 by decide, if_pos table]
  dsimp only
  rw [show (0x80942000 + 0) % 2 ^ 32 / PGSIZE = 0x80942 by decide, entry, pteAddr, pa,
    show (if 40 - 0 < PGSIZE then 40 - 0 else PGSIZE) = 40 by decide,
    show readi overwriting ((116 + 0) % 2 ^ 32) 40 =
    .ok (40, fun j => overwriting.data (116 + j)) from rfl, ok_bind]
  obtain ⟨n, fuel⟩ : ∃ n, NPAGES = n + 1 := Nat.exists_eq_succ_of_ne_zero (by decide)
  rw [if_neg (by decide), fuel, loaduvmLoopWith, if_neg (by decide)]

def secondImage (u : Uvm) : Uvm := (firstImage u).store 0x942 40 fun j => overwriting.data (116 + j)

theorem word_wordsAt {ws : Nat → Nat} {i : Nat} (small : ws i < 2 ^ 32) :
    word (wordsAt ws) (4 * i) = ws i := by
  have q : 4 * i / 4 = i ∧ (4 * i + 1) / 4 = i ∧ (4 * i + 2) / 4 = i ∧
      (4 * i + 3) / 4 = i := by omega
  have r : 4 * i % 4 = 0 ∧ (4 * i + 1) % 4 = 1 ∧ (4 * i + 2) % 4 = 2 ∧
      (4 * i + 3) % 4 = 3 := by omega
  unfold word wordsAt
  simp only [q, r, UInt8.toNat_ofNat']
  omega

theorem PgDir.ofBytes_pte {mem : Nat → Lib.Bytes} {page v x : Nat}
    (table : (PgDir.ofBytes mem page).tab (v / NPTENTRIES) = some x) :
    (PgDir.ofBytes mem page).pte v = wordPte (word (mem x) (4 * (v % NPTENTRIES))) := by
  change ((PgDir.ofBytes mem page).tab (v / NPTENTRIES)).bind _ = _
  rw [table]
  rfl

theorem FreshDir.overwritten (h : FreshDir u) : (secondImage u).pgdir.tab 0 = some 0x942 ∧
    (secondImage u).pgdir.pte 8 = some (userPte 0x941) ∧ (secondImage u).pgdir.pte 9 = none ∧
    (secondImage u).kmem.freelist = List.range' 0x943 13 ∧ (secondImage u).kmem.kend = 0x115 := by
  have hit : 0 < (40 : Int) ∧ (firstImage u).pgdir.IsTable 0x942 :=
    ⟨by decide, .inr ⟨0, by decide, rfl⟩⟩
  let page : Lib.Bytes := fun j => if (j : Int) < 40 then overwriting.data (116 + j) else
    (firstImage u).bytes 0x942 j
  let mem := Function.update (firstImage u).bytes 0x942 page
  have image : secondImage u =
      ⟨.ofBytes mem u.pgdir.page, { (firstImage u).kmem with mem := mem }⟩ := by
    unfold secondImage Uvm.store
    rw [if_pos hit]
    rfl
  have dir : mem u.pgdir.page = wordsAt fun i =>
    pteWord (((firstImage u).pgdir.tab i).map userPte) :=
    (Function.update_of_ne h.apart _ _).trans (if_pos rfl)
  have tab : (PgDir.ofBytes mem u.pgdir.page).tab 0 = some 0x942 := by
    have first : (firstImage u).pgdir.tab 0 = some 0x942 := rfl
    change (wordPte (word (mem u.pgdir.page) (4 * 0))).map Pte.pa = _
    rw [dir, word_wordsAt (by rw [first]; decide), first]
    decide
  have at_ : mem 0x942 = page := Function.update_self _ _ _
  have file : ∀ i < 10, word page (4 * i) = word overwriting.data (116 + 4 * i) := by
    intro i less
    unfold word
    simp only [page]
    rw [if_pos (by omega), if_pos (by omega), if_pos (by omega), if_pos (by omega)]
    rfl
  rw [image]
  refine ⟨tab, ?_, ?_, rfl, h.kend⟩
  · rw [PgDir.ofBytes_pte (v := 8) tab, at_, file _ (by decide)]
    decide
  · rw [PgDir.ofBytes_pte (v := 9) tab, at_, file _ (by decide)]
    decide

theorem FreshDir.loads (h : FreshDir u) :
    loadSegmentsWith Uvm.store overwriting 2 52 0 u = .ok (true, 4096, secondImage u) := by
  have headers : Proghdr.parse (fun j => overwriting.data (52 + j)) = ⟨1, 0, 0, 0, 4096⟩ ∧
      Proghdr.parse (fun j => overwriting.data (84 + j)) =
        ⟨1, 116, 0x80942000, 40, 0x7F6BE000⟩ := by
    unfold Proghdr.parse
    exact ⟨by congr 1, by congr 1⟩
  have empty : loaduvmWith Uvm.store (firstImage u) 0 overwriting 0 0 = .ok (0, firstImage u) := by
    unfold loaduvmWith
    rw [if_neg (by decide), loaduvmLoopWith, if_neg (by decide)]
  have kept : allocuvm (firstImage u) 4096 0 = .ok (4096, firstImage u) := by
    unfold allocuvm
    rw [if_neg (by decide), if_pos (by decide)]
  rw [loadSegmentsWith, show readi overwriting 52 PROGHDRSIZE =
    .ok (32, fun j => overwriting.data (52 + j)) from rfl, ok_bind]
  dsimp only
  rw [headers.1, if_neg (by decide), if_neg (by decide), if_neg (by decide),
    show (0 + 4096) % 2 ^ 32 = 4096 by decide, h.first, ok_bind]
  dsimp only
  rw [if_neg (by decide), empty, ok_bind]
  dsimp only
  rw [if_neg (by decide), loadSegmentsWith,
    show readi overwriting ((52 + PROGHDRSIZE) % 2 ^ 32) PROGHDRSIZE =
    .ok (32, fun j => overwriting.data (84 + j)) from rfl, ok_bind]
  dsimp only
  rw [headers.2, if_neg (by decide), if_neg (by decide), if_neg (by decide),
    show (0x80942000 + 0x7F6BE000) % 2 ^ 32 = 0 by decide, kept, ok_bind]
  dsimp only
  rw [if_neg (by decide), h.second]
  rfl

end Overwrite

def overwritten : Vm := { starting with fs := { starting.fs with inode := fun _ => overwriting } }

end MmapXv6
