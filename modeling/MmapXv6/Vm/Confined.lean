import MmapXv6.Vm.Segments

/-! Where the loader stores. allocuvm checks the 32-bit sum of a segment's address and
size, and loaduvm walks from the address itself. With a sum that wraps around, the pages
of the segment need not be among those that were allocated. -/
namespace MmapXv6

open Lib (bind_ok word)

/-- The addresses of the pages to which loaduvm stores, in order: those of which readi gets
some bytes. -/
def loaduvmStores (d : PgDir) (addr : Nat) (ip : Inode) (offset sz : Nat) : Nat → Nat → List Nat
  | 0, _ => []
  | n + 1, i =>
    if i < sz then
      let va := (addr + i) % 2 ^ 32
      let n1 := if sz - i < PGSIZE then sz - i else PGSIZE
      if (d.tab (PDX va)).isSome then
        match readi ip ((offset + i) % 2 ^ 32) n1 with
        | .error _ => []
        | .ok (r, _) => (if 0 < r then [va] else []) ++
            if r ≠ n1 then [] else loaduvmStores d addr ip offset sz n ((i + PGSIZE) % 2 ^ 32)
      else []
    else []

/-- A page of the directory at the time of the store, by its address. -/
structure Store where
  dir : PgDir
  va : Nat

/-- The stores of the segment loop, also where it fails or ends in a panic. -/
def segmentStores (ip : Inode) : Nat → Nat → Nat → Uvm → List Store
  | 0, _, _, _ => []
  | n + 1, off, sz, u =>
    match readi ip off PROGHDRSIZE with
    | .error _ => []
    | .ok (r, b) =>
      let ph := Proghdr.parse b
      let next := (off + PROGHDRSIZE) % 2 ^ 32
      if r ≠ PROGHDRSIZE then []
      else if ph.type ≠ ELFPROGLOAD then segmentStores ip n next sz u
      else if ph.memsz < ph.filesz then []
      else match allocuvm u sz ((ph.vaddr + ph.memsz) % 2 ^ 32) with
        | .error _ => []
        | .ok (sz, u) =>
          if sz = 0 then []
          else if ph.vaddr % PGSIZE ≠ 0 then []
          else (loaduvmStores u.pgdir ph.vaddr ip ph.off ph.filesz (NPAGES + 1) 0).map
            (Store.mk u.pgdir) ++
            match loaduvm u ph.vaddr ip ph.off ph.filesz with
            | .error _ => []
            | .ok (r, u) => if r < 0 then [] else segmentStores ip n next sz u

def execStores (s : Vm) (path : Path) : List Store :=
  match path.ip with
  | none => []
  | some i =>
    let ip := s.fs.inode i
    match readi ip 0 ELFHDRSIZE with
    | .error _ => []
    | .ok (r, elf) =>
      if r < ELFHDRSIZE ∨ word elf 0 ≠ ELFMAGIC then []
      else match setupkvm s.kmem with
        | .ok (some d, k) => segmentStores ip (word elf 44 % 2 ^ 16) (word elf 28) 0 ⟨d, k⟩
        | _ => []

/-- The store goes to a page of the user's half that allocuvm has taken from the pages
that were free when exec began. -/
def Store.Confined (k : Kmem) (s : Store) : Prop :=
  s.va < KERNBASE ∧ ∃ e, s.dir.entry (s.va / PGSIZE) = some e ∧ e.user = true ∧ e.pa ∈ k.freelist

/-- Every page of the segment that loaduvm reads something of lies below the size of the
image. -/
def Inode.inside (ip : Inode) (ph : Proghdr) (size : Nat) (has : Nat → Bool) : Prop :=
  ph.vaddr % PGSIZE = 0 → ∀ j < pagesTo 0 ph.filesz, ip.comesTo ph has j →
    ip.readsSome ph j = true → ph.page j < size

/-- The same of every segment that exec comes to. -/
def StaysInside (s : Vm) (path : Path) : Prop :=
  ∀ i, path.ip = some i → (s.fs.inode i).isElf → KVMPAGES ≤ s.kmem.freelist.length →
    eachSegment (s.fs.inode i).inside (s.fs.inode i) (s.fs.inode i).phnum (s.fs.inode i).phoff 0
      ⟨kernelTab, s.kmem.freelist.length - KVMPAGES⟩

section Trace
variable {u w : Uvm} {ip : Inode} {ph : Proghdr}

variable {n j m : Nat}

theorem Uvm.put_mem {pa g : Nat} {r : Int} {b : Lib.Bytes} (away : 0 < r → pa ≠ g) :
    (u.put pa r b).kmem.mem g = u.kmem.mem g := by
  change Function.update _ _ _ g = _
  by_cases here : g = pa
  · subst here
    rw [Function.update_self]
    funext j
    exact if_neg fun less => away (by omega) rfl
  · exact Function.update_of_ne here _ _

/-- A page that is behind no address of the trace keeps its bytes. -/
theorem loaduvmLoop_mem {addr offset sz i g : Nat} {r : Int}
    (away : ∀ va ∈ loaduvmStores u.pgdir addr ip offset sz n i,
      pteAddr (u.pgdir.pte (va / PGSIZE)) ≠ g)
    (done : loaduvmLoop addr ip offset sz n u i = .ok (r, w)) : w.kmem.mem g = u.kmem.mem g := by
  induction n generalizing u i with
  | zero => cases done
  | succ n ih =>
    rw [loaduvmLoop, loaduvmLoopWith] at done
    rw [loaduvmStores] at away
    by_cases more : i < sz
    · rw [if_pos more] at away done
      dsimp only at away done
      rw [walkpgdir_noalloc] at done
      generalize (if sz - i < PGSIZE then sz - i else PGSIZE) = n1 at away done
      by_cases table : (u.pgdir.tab (PDX ((addr + i) % 2 ^ 32))).isSome
      · rw [if_pos table] at away done
        obtain ⟨⟨q, b⟩, read, done⟩ := bind_ok.mp done
        rw [read] at away
        dsimp only at away done
        have kept := Uvm.put_mem (u := u) (b := b) fun some =>
          away _ (List.mem_append_left _ (by rw [if_pos some]; exact List.mem_singleton_self _))
        by_cases short : q ≠ n1
        · rw [if_pos short] at done
          cases done
          exact kept
        · rw [if_neg short] at away done
          exact (ih (u := u.put _ q b) (fun va mem => away va (List.mem_append_right _ mem))
            done).trans kept
      · rw [if_neg table] at done
        cases done
    · rw [if_neg more] at done
      cases done
      rfl

theorem loaduvmStores_pass (plain : ip.type ≠ .dev) (below : j * PGSIZE < ph.filesz) (n : Nat)
    (d : PgDir) :
    loaduvmStores d ph.vaddr ip ph.off ph.filesz (n + 1) (j * PGSIZE) =
      if d.has (PDX (ph.page j)) = true then
        (if ip.readsSome ph j = true then [ph.page j] else []) ++
          if ip.readsPage ph j = true then
            loaduvmStores d ph.vaddr ip ph.off ph.filesz n ((j * PGSIZE + PGSIZE) % 2 ^ 32)
          else []
      else [] := by
  have len : (if ph.filesz - j * PGSIZE < PGSIZE then ph.filesz - j * PGSIZE else PGSIZE) =
      ph.pageLen j := by
    unfold Proghdr.pageLen
    split <;> omega
  have pos : 0 < ph.pageLen j := by
    unfold Proghdr.pageLen
    simp only [PGSIZE] at below ⊢
    omega
  obtain ⟨r, b, read⟩ := readi_plain plain (ph.pageOff j) (ph.pageLen j)
  have some : 0 < r ↔ ip.readsSome ph j = true := by
    unfold Inode.readsSome
    rw [readi_some pos read, Bool.and_eq_true, decide_eq_true_iff, decide_eq_true_iff]
  have whole : r = ph.pageLen j ↔ ip.readsPage ph j = true := readi_reads read
  rw [loaduvmStores, if_pos below]
  dsimp only
  rw [len, show (ph.vaddr + j * PGSIZE) % 2 ^ 32 = ph.page j from rfl,
    show (ph.off + j * PGSIZE) % 2 ^ 32 = ph.pageOff j from rfl, read]
  unfold PgDir.has
  simp only [some, ne_eq, whole, ite_not]

theorem mem_loaduvmStores {d : PgDir} {va : Nat} (plain : ip.type ≠ .dev) (index : m < NPDENTRIES)
    (bare : d.has m = false) (aligned : ph.vaddr % PGSIZE = 0) (word : ph.vaddr < 2 ^ 32)
    (seen : ∀ k < j, d.has (PDX (ph.page k)) = true) (fuel : ph.filesz ≤ (j + n) * PGSIZE) :
    va ∈ loaduvmStores d ph.vaddr ip ph.off ph.filesz (n + 1) (j * PGSIZE) ↔
      ∃ k, j ≤ k ∧ k * PGSIZE < ph.filesz ∧ (∀ l ≤ k, d.has (PDX (ph.page l)) = true) ∧
        (∀ l, j ≤ l → l < k → ip.readsPage ph l = true) ∧ ip.readsSome ph k = true ∧
          va = ph.page k := by
  induction n generalizing j with
  | zero =>
    rw [Nat.add_zero] at fuel
    rw [loaduvmStores, if_neg (by omega)]
    refine ⟨nofun, ?_⟩
    rintro ⟨k, from_, below, -⟩
    have := Nat.mul_le_mul_right PGSIZE from_
    omega
  | succ n ih =>
    by_cases below : j * PGSIZE < ph.filesz
    · rw [loaduvmStores_pass plain below (n + 1) d]
      by_cases table : d.has (PDX (ph.page j)) = true
      · have seen' : ∀ k ≤ j, d.has (PDX (ph.page k)) = true := by
          intro k le
          rcases Nat.lt_or_eq_of_le le with less | rfl
          · exact seen k less
          · exact table
        have next : (j * PGSIZE + PGSIZE) % 2 ^ 32 = (j + 1) * PGSIZE :=
          page_next_word (u := ⟨d, {}⟩) index bare aligned word seen'
        have later := ih (j := j + 1) (fun k less => seen' k (by omega))
          (by rw [show j + 1 + n = j + (n + 1) by omega]; exact fuel)
        rw [if_pos table, next, List.mem_append]
        constructor
        · rintro (here | there)
          · split at here
            · rename_i some
              exact ⟨j, Nat.le_refl _, below, seen', fun l ge lt => absurd lt (by omega), some,
                List.mem_singleton.mp here⟩
            · cases here
          · split at there
            · rename_i all
              obtain ⟨k, from_, low, tables, before, some, eq⟩ := later.mp there
              refine ⟨k, by omega, low, tables, fun l ge lt => ?_, some, eq⟩
              rcases Nat.eq_or_lt_of_le ge with rfl | less
              · exact all
              · exact before l less lt
            · cases there
        · rintro ⟨k, from_, low, tables, before, some, eq⟩
          rcases Nat.eq_or_lt_of_le from_ with rfl | less
          · left
            rw [if_pos some, eq]
            exact List.mem_singleton_self _
          · right
            rw [if_pos (before j (Nat.le_refl _) less)]
            exact later.mpr ⟨k, less, low, tables, fun l ge lt => before l (by omega) lt, some, eq⟩
      · rw [if_neg table]
        refine ⟨nofun, ?_⟩
        rintro ⟨k, from_, -, tables, -⟩
        exact absurd (tables j from_) table
    · rw [loaduvmStores, if_neg below]
      refine ⟨nofun, ?_⟩
      rintro ⟨k, from_, low, -⟩
      exact absurd (Nat.lt_of_le_of_lt (Nat.mul_le_mul_right PGSIZE from_) low) below

end Trace

section Segments
variable {k : Kmem} {u w : Uvm} {ip : Inode} {ph : Proghdr} {sz : Nat}

theorem Image.confined_iff (image : Image k u sz) {va : Nat} (aligned : va % PGSIZE = 0)
    (table : u.pgdir.has (PDX va) = true) : Store.Confined k ⟨u.pgdir, va⟩ ↔ va < sz := by
  have here : va / PGSIZE * PGSIZE = va := by
    simp only [PGSIZE] at aligned ⊢
    omega
  have small := image.small
  constructor
  · rintro ⟨low, e, there, -⟩
    by_contra above
    have none := image.below (va / PGSIZE) (user_page low) (by omega)
    rw [show u.pgdir.entry (va / PGSIZE) = some e from there] at none
    cases none
  · intro below
    have user : va / PGSIZE < UPAGES := user_page (by omega)
    refine ⟨Nat.lt_trans below small, ?_⟩
    rcases image.filled (va / PGSIZE) (by omega) with there | ⟨bare, -⟩
    · obtain ⟨e, there⟩ := Option.isSome_iff_exists.mp there
      have counted := (Uvm.count_user user there).trans_le (image.pages e.pa)
      exact ⟨e, there, image.users _ user e there, List.count_pos_iff.mp counted⟩
    · unfold PgDir.has at table
      rw [show u.pgdir.tab (PDX va) = none from bare] at table
      cases table

theorem header_word (ip : Inode) (off : Nat) :
    (ip.header off).vaddr < 2 ^ 32 ∧ (ip.header off).filesz < 2 ^ 32 :=
      ⟨Lib.word_lt _ _, Lib.word_lt _ _⟩

theorem Image.stores_iff (image : Image k u sz) (plain : ip.type ≠ .dev)
    (aligned : ph.vaddr % PGSIZE = 0)
    (word : ph.vaddr < 2 ^ 32 ∧ ph.filesz < 2 ^ 32) :
    (∀ st ∈ (loaduvmStores u.pgdir ph.vaddr ip ph.off ph.filesz (NPAGES + 1) 0).map
      (Store.mk u.pgdir), st.Confined k) ↔ ip.inside ph sz u.pgdir.has := by
  have stores : ∀ va, _ :=
      fun va => (mem_loaduvmStores (n := NPAGES) (j := 0) plain (by decide) image.bare
    aligned word.1 (fun k less => absurd less (Nat.not_lt_zero k))
    (by simp only [NPAGES, NPDENTRIES, NPTENTRIES, PGSIZE]; omega) : va ∈ _ ↔ _)
  simp only [Nat.zero_mul, Nat.zero_le, true_and, forall_const] at stores
  have page : ∀ j, ph.page j % PGSIZE = 0 := by
    intro j
    unfold Proghdr.page
    simp only [PGSIZE] at aligned ⊢
    omega
  constructor
  · intro all _ j less comes some
    have store := (stores (ph.page j)).mpr ⟨j, lt_pagesTo.mp less, comes.1, comes.2, some, rfl⟩
    exact (image.confined_iff (page j) (comes.1 j (Nat.le_refl _))).mp
      (all _ (List.mem_map_of_mem store))
  · intro inside st mem
    obtain ⟨va, store, rfl⟩ := List.mem_map.mp mem
    obtain ⟨j, low, tables, before, some, rfl⟩ := (stores va).mp store
    exact (image.confined_iff (page j) (tables j (Nat.le_refl _))).mpr
      (inside aligned j (lt_pagesTo.mpr low) ⟨tables, before⟩ some)

/-- One pass of the segment loop, up to the load: the loop ends, or goes on to the next
header, or has grown the image. -/
inductive SegmentPass (k : Kmem) (ip : Inode) (n off sz : Nat) (u : Uvm) : Prop where
  | stop (r : Bool × Nat × Uvm) (each : ∀ holds, eachSegment holds ip (n + 1) off sz u.acct)
      (stores : segmentStores ip (n + 1) off sz u = [])
      (loads : ∀ put, loadSegmentsWith put ip (n + 1) off sz u = .ok r)
  | skip (each : ∀ holds, eachSegment holds ip (n + 1) off sz u.acct ↔
        eachSegment holds ip n ((off + PROGHDRSIZE) % 2 ^ 32) sz u.acct)
      (stores : segmentStores ip (n + 1) off sz u =
        segmentStores ip n ((off + PROGHDRSIZE) % 2 ^ 32) sz u)
      (loads : ∀ put, loadSegmentsWith put ip (n + 1) off sz u =
        loadSegmentsWith put ip n ((off + PROGHDRSIZE) % 2 ^ 32) sz u)
  | load (ph : Proghdr) (size : Nat) (v : Uvm) (image : Image k v size)
      (word : ph.vaddr < 2 ^ 32 ∧ ph.filesz < 2 ^ 32)
      (each : ∀ holds, eachSegment holds ip (n + 1) off sz u.acct ↔ holds ph size v.pgdir.has ∧
        (ip.loads ph v.pgdir.has →
          eachSegment holds ip n ((off + PROGHDRSIZE) % 2 ^ 32) size v.acct))
      (stores : segmentStores ip (n + 1) off sz u = if ph.vaddr % PGSIZE ≠ 0 then [] else
        (loaduvmStores v.pgdir ph.vaddr ip ph.off ph.filesz (NPAGES + 1) 0).map
          (Store.mk v.pgdir) ++ match loaduvm v ph.vaddr ip ph.off ph.filesz with
          | .error _ => []
          | .ok (r, w) => if r < 0 then [] else
              segmentStores ip n ((off + PROGHDRSIZE) % 2 ^ 32) size w)
      (loads : ∀ put, loadSegmentsWith put ip (n + 1) off sz u =
        loaduvmWith put v ph.vaddr ip ph.off ph.filesz >>= fun r => if r.1 < 0 then
        .ok (false, size, r.2)
          else loadSegmentsWith put ip n ((off + PROGHDRSIZE) % 2 ^ 32) size r.2)

theorem Image.pass (plain : ip.type ≠ .dev) (image : Image k u sz) (n off : Nat) :
    SegmentPass k ip n off sz u := by
  obtain ⟨r, b, read⟩ := readi_plain plain off PROGHDRSIZE
  have reads := readi_reads read
  have stores := segmentStores.eq_2 ip off sz u n
  have loads := fun put => loadSegmentsWith.eq_2 put ip off sz u n
  rw [read] at stores
  simp only [read, Lib.ok_bind] at loads
  dsimp only at stores
  by_cases whole : r = PROGHDRSIZE
  · rw [readi_header read whole, if_neg (not_not.mpr whole)] at stores
    simp only [readi_header read whole, if_neg (not_not.mpr whole)] at loads
    by_cases type : (ip.header off).type = ELFPROGLOAD
    · rw [if_neg (not_not.mpr type)] at stores
      simp only [if_neg (not_not.mpr type)] at loads
      by_cases less : (ip.header off).memsz < (ip.header off).filesz
      · exact .stop _ (fun _ => eachSegment_wrong type less) (stores.trans (if_pos less))
          fun put => (loads put).trans (if_pos less)
      · have able : loadable ip off := ⟨reads.mp whole, type, Nat.not_lt.mp less⟩
        obtain ⟨size, v, grown⟩ := image.allocates (ip.header off).end_
        have grown' :
            allocuvm u sz (((ip.header off).vaddr + (ip.header off).memsz) % 2 ^ 32) = _ := grown
        rw [if_neg less, grown'] at stores
        simp only [if_neg less, grown', Lib.ok_bind] at loads
        by_cases served : size = 0
        · subst served
          exact .stop _ (fun _ => eachSegment_full type (allocuvm_full grown)) stores loads
        · dsimp only at stores
          rw [if_neg served] at stores
          simp only [if_neg served] at loads
          exact .load _ size v (image.grown grown served) (header_word ip off)
            (fun _ => eachSegment_load able (allocuvm_plan grown served) served) stores loads
    · exact .skip (fun _ => eachSegment_skip (reads.mp whole) type) (stores.trans (if_pos type))
        fun put => (loads put).trans (if_pos type)
  · exact .stop _
      (fun _ => eachSegment_unread (Bool.eq_false_iff.mpr fun yes => whole (reads.mpr yes)))
      (stores.trans (if_pos whole)) fun put => (loads put).trans (if_pos whole)

/-- The stores of the segment loop are confined exactly where each segment that it comes
to stays inside the image. -/
theorem segmentStores_confined {n off : Nat} (plain : ip.type ≠ .dev) (image : Image k u sz) :
    (∀ st ∈ segmentStores ip n off sz u, st.Confined k) ↔
      eachSegment ip.inside ip n off sz u.acct := by
  have none : ∀ {p : Prop}, p → ((∀ st ∈ ([] : List Store), st.Confined k) ↔ p) :=
    fun holds => ⟨fun _ => holds, fun _ => nofun⟩
  induction n generalizing off sz u with
  | zero => exact none trivial
  | succ n ih =>
    cases image.pass plain n off with
    | stop r each stores => rw [stores]; exact none (each _)
    | skip each stores => rw [stores, each]; exact ih image
    | load ph size v image' word each stores =>
      rw [stores, each]
      by_cases aligned : ph.vaddr % PGSIZE = 0
      · have loads := loaduvm_loads plain (by decide) image'.bare word.1 word.2
        rw [if_neg (not_not.mpr aligned), List.forall_mem_append,
          image'.stores_iff plain aligned word]
        refine and_congr Iff.rfl ?_
        cases done : loaduvm v ph.vaddr ip ph.off ph.filesz with
        | error p =>
          refine none fun yes => ?_
          obtain ⟨q, w, run, -⟩ := loads.mpr yes
          rw [done] at run
          cases run
        | ok p =>
          obtain ⟨q, w⟩ := p
          dsimp only
          by_cases failed : q < 0
          · rw [if_pos failed]
            refine none fun yes => ?_
            obtain ⟨q', w', run, served'⟩ := loads.mpr yes
            rw [done] at run
            cases run
            exact absurd failed served'
          · have yes := loads.mp ⟨q, w, done, failed⟩
            rw [if_neg failed]
            refine (ih (image'.loaded done)).trans ?_
            rw [loaduvm_acct done]
            exact ⟨fun h _ => h, fun h => h yes⟩
      · rw [if_pos aligned]
        exact none ⟨fun yes => absurd yes aligned, fun yes => absurd yes.1 aligned⟩

end Segments

section Exec
variable {s : Vm} {path : Path}

theorem execStores_opens {i : Fin NINODE} {u : Uvm} (plain : (s.fs.inode i).type ≠ .dev)
    (opens : Opens s path i u) : execStores s path =
      segmentStores (s.fs.inode i) (s.fs.inode i).phnum (s.fs.inode i).phoff 0 u := by
  obtain ⟨found, elf, setup⟩ := opens
  obtain ⟨r, b, read⟩ := readi_plain plain 0 ELFHDRSIZE
  obtain ⟨rfl, short⟩ := readi_elf read
  unfold execStores
  rw [found]
  dsimp only
  rw [read]
  dsimp only
  rw [if_neg, setup]
  · rfl
  · rintro (less | magic)
    · exact absurd elf.1 (Nat.not_le.mpr (short.mp less))
    · exact magic elf.2

theorem execStores_closed (closed : ∀ i u, ¬Opens s path i u) : execStores s path = [] := by
  unfold execStores
  split
  · rfl
  · rename_i i found
    dsimp only
    split
    · rfl
    · rename_i r elf read
      obtain ⟨rfl, short⟩ := readi_elf read
      split
      · rfl
      · rename_i good
        push Not at good
        split
        · rename_i d k setup
          refine absurd ⟨found, ⟨?_, good.2⟩, setup⟩ (closed i ⟨d, k⟩)
          exact Nat.not_lt.mp fun less => absurd (short.mpr less) (not_lt.mpr good.1)
        · rfl

theorem execStores_confined {i : Fin NINODE} {u : Uvm} (legal : s.kmem.Legal)
    (plain : (s.fs.inode i).type ≠ .dev) (opens : Opens s path i u) :
    (∀ st ∈ execStores s path, st.Confined s.kmem) ↔
      eachSegment (s.fs.inode i).inside (s.fs.inode i) (s.fs.inode i).phnum (s.fs.inode i).phoff 0
        ⟨kernelTab, s.kmem.freelist.length - KVMPAGES⟩ := by
  have image : Image s.kmem u 0 := .start legal opens.2.2
  rw [execStores_opens plain opens, segmentStores_confined plain image,
    (opens.newDir legal.data).acct]

theorem opens_of_room {i : Fin NINODE} (legal : s.kmem.Legal) (found : path.ip = some i)
    (elf : (s.fs.inode i).isElf) (room : KVMPAGES ≤ s.kmem.freelist.length) :
      ∃ u, Opens s path i u := by
  obtain ⟨d, k, setup, made⟩ := setupkvm_made legal.data
  cases made with
  | none short => omega
  | some => exact ⟨⟨_, _⟩, found, elf, setup⟩

/-- Everything that loaduvm stores goes to pages that allocuvm has allocated for the
image if and only if each page that it reads something of lies below the size of the
image at that time. -/
theorem loader_confined (legal : s.kmem.Legal)
    (plain : ∀ i, path.ip = some i → (s.fs.inode i).type ≠ .dev) :
    (∀ st ∈ execStores s path, st.Confined s.kmem) ↔ StaysInside s path := by
  by_cases opened : ∃ i u, Opens s path i u
  · obtain ⟨i, u, opens⟩ := opened
    rw [execStores_confined legal (plain i opens.1) opens]
    constructor
    · intro each j found _ _
      cases opens.1.symm.trans found
      exact each
    · exact fun inside => inside i opens.1 opens.2.1 (opens.newDir legal.data).room
  · push Not at opened
    rw [execStores_closed opened]
    refine ⟨fun _ i found elf room => ?_, fun _ => nofun⟩
    obtain ⟨u, opens⟩ := opens_of_room legal found elf room
    exact absurd opens (opened i u)

theorem program_inside (file : s.fs.inode 0 = program) : StaysInside s programPath := by
  intro i found _ _
  cases found
  rw [file, show program.phnum = 0 by decide]
  trivial

end Exec

def wordsAt (ws : Nat → Nat) : Lib.Bytes := fun j => UInt8.ofNat (ws (j / 4) / 256 ^ (j % 4))

def wordFile (ws : List Nat) : Inode := { size := 4 * ws.length, data := wordsAt (ws.getD · 0) }

/-- A program with some segments, by the words of their headers, and what comes after these. -/
def elfFileWith (rest : List Nat) (phs : List (List Nat)) : Inode :=
  wordFile ([ELFMAGIC, 0, 0, 0, 0, 0, 0, ELFHDRSIZE, 0, 0, 0, phs.length, 0] ++ phs.flatten ++ rest)

def elfFile := elfFileWith []

def running (ip : Inode) : Vm := { loader with fs := { loader.fs with inode := fun _ => ip } }

def firstTabs : Nat → Bool := Function.update kernelTab 0 true

theorem allocuvm_first : Acct.allocuvm ⟨kernelTab, 15⟩ 0 4096 = some (4096, ⟨firstTabs, 13⟩) := by
  have one : pagesTo (PGROUNDUP 0) 4096 = 1 := by decide
  rw [Acct.allocuvm, if_neg (by decide), if_neg (by decide), one]
  rfl

def smallProgram : Inode := elfFile [[1, 0, 0, 0, 4, 4096, 0, 0]]

theorem small_plan : Acct.allocuvm ⟨kernelTab, 15⟩ 0 (smallProgram.header 52).end_ =
    some (4096, ⟨firstTabs, 13⟩) := by
  rw [show (smallProgram.header 52).end_ = 4096 by decide, allocuvm_first]

theorem small_inside : StaysInside (running smallProgram) programPath := by
  intro i found _ _
  cases found
  refine (eachSegment_load (n := 0) ⟨by decide, by decide, by decide⟩ small_plan (by decide)).mpr
    ⟨?_, fun _ => trivial⟩
  intro _ j less _ _
  have first : pagesTo 0 (smallProgram.header 52).filesz = 1 := by decide
  obtain rfl : j = 0 := by omega
  decide

/-- The stores for a program of one page stay in pages from the free list. -/
theorem loader_confined_small : StaysInside (running smallProgram) programPath ∧
    ∀ st ∈ execStores (running smallProgram) programPath, st.Confined loader.kmem :=
  ⟨small_inside, (loader_confined (s := running smallProgram) loader_legal
    fun _ _ => show smallProgram.type ≠ .dev by decide).mpr small_inside⟩

/-- A page at address 0, and then a segment at the last page of the direct map whose end
wraps around to 0. -/
def strayProgram : Inode :=
  elfFile [[1, 0, 0, 0, 0, 4096, 0, 0], [1, 0, 0x8DFFF000, 0, 4, 0x72001000, 0, 0]]

theorem stray_outside : ¬eachSegment strayProgram.inside strayProgram 2 52 0 ⟨kernelTab, 15⟩ := by
  have first : Acct.allocuvm ⟨kernelTab, 15⟩ 0 (strayProgram.header 52).end_ =
      some (4096, ⟨firstTabs, 13⟩) := by
    rw [show (strayProgram.header 52).end_ = 4096 by decide, allocuvm_first]
  have second : Acct.allocuvm ⟨firstTabs, 13⟩ 4096 (strayProgram.header 84).end_ =
      some (4096, ⟨firstTabs, 13⟩) := by
    rw [show (strayProgram.header 84).end_ = 0 by decide, Acct.allocuvm, if_neg (by decide),
      if_pos (by decide)]
  rw [eachSegment_load ⟨by decide, by decide, by decide⟩ first (by decide)]
  rintro ⟨-, rest⟩
  have loads : strayProgram.loads (strayProgram.header 52) firstTabs :=
    ⟨by decide, fun j less => absurd (less.trans_eq (by decide)) (Nat.not_lt_zero j)⟩
  have segment : eachSegment strayProgram.inside strayProgram 1 84 4096
      ⟨firstTabs, 13⟩ := rest loads
  rw [eachSegment_load ⟨by decide, by decide, by decide⟩ second (by decide)] at segment
  have inside := segment.1 (by decide) 0 (by decide) ⟨fun k le => ?_, nofun⟩ (by decide)
  · exact absurd inside (by decide)
  · obtain rfl : k = 0 := by omega
    decide

/-- exec of such a file stores to a page that is not the image's. -/
theorem loader_strays : ∃ st ∈ execStores (running strayProgram) programPath,
    ¬st.Confined loader.kmem := by
  by_contra none
  push Not at none
  have legal : (running strayProgram).kmem.Legal := loader_legal
  obtain ⟨u, opens⟩ := opens_of_room (i := 0) legal (show programPath.ip = some 0 from rfl)
    ⟨by decide, by decide⟩ (by decide)
  exact stray_outside
    ((execStores_confined legal (show strayProgram.type ≠ .dev by decide) opens).mp none)

end MmapXv6
