import MmapXv6.Types
import MmapXv6.Lib.Run
import MmapXv6.Lib.Word

/-! The page allocator of kalloc.c and the page tables of vm.c. A physical page is
named by its number, so p2v and v2p disappear. A page table is kept by the directory
that owns it and not as bytes of its page. Addresses are uints, and a loop that
visits more pages than the address space has runs forever in the source. -/
namespace MmapXv6

open Function

def PGROUNDUP (sz : Nat) : Nat := (sz + (PGSIZE - 1)) % 2 ^ 32 / PGSIZE * PGSIZE

def PGROUNDDOWN (a : Nat) : Nat := a / PGSIZE * PGSIZE

def PDX (va : Nat) : Nat := va / PGSIZE / NPTENTRIES

abbrev NPAGES : Nat := NPDENTRIES * NPTENTRIES

/-- Where kernel.ld may put the symbol data: after the kernel's text. -/
abbrev DataAddr := { a : Nat // KERNLINK < a ∧ a < KERNBASE + PHYSTOP }

def dataStart : DataAddr := ⟨0x80108000, by decide⟩

/-- The kmem of kalloc.c, the bytes of physical memory by page, and the linker's
symbols data (an address) and end (the first page after the kernel). The word that
links a free page to the next one is not kept as bytes of the page. -/
structure Kmem where
  freelist : List Nat := []
  mem : Nat → Lib.Bytes := fun _ _ => 0
  kdata : DataAddr := dataStart
  kend : Nat := 0x115

def Kmem.memset (k : Kmem) (pa : Nat) (c : UInt8) : Kmem :=
  { k with mem := update k.mem pa fun _ => c }

def Kmem.kalloc (k : Kmem) : Option (Nat × Kmem) :=
  match k.freelist with
  | [] => none
  | r :: next => some (r, { k with freelist := next })

def Kmem.kfree (k : Kmem) (pa : Nat) : Except Panic Kmem :=
  if pa < k.kend ∨ PHYSTOP / PGSIZE ≤ pa then .error .kfree
  else .ok { k.memset pa 1 with freelist := pa :: k.freelist }

/-- What the hardware finds for a virtual page: nothing without a page table. -/
def PgDir.entry (d : PgDir) (v : Nat) : Option Pte :=
  if (d.tab (v / NPTENTRIES)).isSome then d.pte v else none

def PgDir.set (d : PgDir) (v : Nat) (e : Option Pte) : PgDir :=
  { d with pte := update d.pte v e }

def PgDir.addTable (d : PgDir) (i pgtab : Nat) : PgDir :=
  { d with
    tab := update d.tab i (some pgtab)
    pte := fun v => if v / NPTENTRIES = i then none else d.pte v }

structure Uvm where
  pgdir : PgDir
  kmem : Kmem

/-- The result none is the null pointer; otherwise the entry is at pte (va / PGSIZE). -/
def walkpgdir (u : Uvm) (va : Nat) (alloc : Bool) : Option Uvm :=
  match u.pgdir.tab (PDX va) with
  | some _ => some u
  | none =>
    if alloc then
      match u.kmem.kalloc with
      | none => none
      | some (pgtab, k) => some ⟨u.pgdir.addTable (PDX va) pgtab, k.memset pgtab 0⟩
    else none

def mappagesLoop : Nat → Uvm → Nat → Nat → Pte → Except Panic (Int × Uvm)
  | 0, _, _, _, _ => .error .loops
  | n + 1, u, a, last, e =>
    match walkpgdir u a true with
    | none => .ok (-1, u)
    | some u =>
      if (u.pgdir.pte (a / PGSIZE)).isSome then .error .remap
      else
        let u := { u with pgdir := u.pgdir.set (a / PGSIZE) (some e) }
        if a = last then .ok (0, u)
        else mappagesLoop n u ((a + PGSIZE) % 2 ^ 32) last { e with pa := e.pa + 1 }

/-- The arguments pa and perm are one entry, the one for the first page. -/
def mappages (u : Uvm) (va size : Nat) (e : Pte) : Except Panic (Int × Uvm) :=
  mappagesLoop (NPAGES + 1) u (PGROUNDDOWN va) (PGROUNDDOWN ((va + size - 1) % 2 ^ 32)) e

structure Kmap where
  virt : Nat
  physStart : Nat
  physEnd : Nat
  writable : Bool

def Kmap.size (k : Kmap) : Nat := (k.physEnd + 2 ^ 32 - k.physStart) % 2 ^ 32

def kmap (kdata : DataAddr) : List Kmap :=
  [⟨KERNBASE, 0, EXTMEM, true⟩, ⟨KERNLINK, EXTMEM, kdata.1 - KERNBASE, false⟩,
    ⟨kdata.1, kdata.1 - KERNBASE, PHYSTOP, true⟩, ⟨DEVSPACE, DEVSPACE, 0, true⟩]

def setupkvmLoop : List Kmap → Uvm → Except Panic (Bool × Uvm)
  | [], u => .ok (true, u)
  | k :: rest, u => do
    let (r, u) ← mappages u k.virt k.size ⟨k.physStart / PGSIZE, k.writable, false, false⟩
    if r < 0 then .ok (false, u) else setupkvmLoop rest u

def setupkvm (k : Kmem) : Except Panic (Option PgDir × Kmem) :=
  match k.kalloc with
  | none => .ok (none, k)
  | some (page, k) => do
    let (ok, u) ← setupkvmLoop (kmap k.kdata) ⟨{ page := page }, k.memset page 0⟩
    .ok (if ok then some u.pgdir else none, u.kmem)

def deallocPage (u : Uvm) (a : Nat) : Except Panic Uvm :=
  match u.pgdir.pte (a / PGSIZE) with
  | none => .ok u
  | some e =>
    if e.pa = 0 then .error .kfree
    else do
      let k ← u.kmem.kfree e.pa
      .ok ⟨u.pgdir.set (a / PGSIZE) none, k⟩

def deallocuvmLoop : Nat → Uvm → Nat → Nat → Except Panic Uvm
  | 0, _, _, _ => .error .loops
  | n + 1, u, a, oldsz =>
    if a < oldsz then
      match walkpgdir u a false with
      | none =>
        -- the jump is counted from a, not from the start of the missing table
        deallocuvmLoop n u ((a + (NPTENTRIES - 1) * PGSIZE + PGSIZE) % 2 ^ 32) oldsz
      | some u => do
        let u ← deallocPage u a
        deallocuvmLoop n u ((a + PGSIZE) % 2 ^ 32) oldsz
    else .ok u

def deallocuvm (u : Uvm) (oldsz newsz : Nat) : Except Panic (Nat × Uvm) :=
  if oldsz ≤ newsz then .ok (oldsz, u)
  else do
    let u ← deallocuvmLoop (NPAGES + 1) u (PGROUNDUP newsz) oldsz
    .ok (newsz, u)

/-- PTE_W|PTE_U -/
def userPte (pa : Nat) : Pte := ⟨pa, true, true, false⟩

def allocuvmLoop : Nat → Uvm → Nat → Nat → Nat → Except Panic (Nat × Uvm)
  | 0, _, _, _, _ => .error .loops
  | n + 1, u, a, oldsz, newsz =>
    if a < newsz then
      match u.kmem.kalloc with
      | none => do
        let (_, u) ← deallocuvm u newsz oldsz
        .ok (0, u)
      | some (mem, k) => do
        -- the result of mappages is not looked at
        let (_, u) ← mappages { u with kmem := k.memset mem 0 } a PGSIZE (userPte mem)
        allocuvmLoop n u ((a + PGSIZE) % 2 ^ 32) oldsz newsz
    else .ok (newsz, u)

def allocuvm (u : Uvm) (oldsz newsz : Nat) : Except Panic (Nat × Uvm) :=
  if KERNBASE ≤ newsz then .ok (0, u)
  else if newsz < oldsz then .ok (oldsz, u)
  else allocuvmLoop (NPAGES + 1) u (PGROUNDUP oldsz) oldsz newsz

def unmappages (u : Uvm) (va size : Nat) : Except Panic (Int × Uvm) := do
  let (newsz, u) ← deallocuvm u ((va + size) % 2 ^ 32) va
  .ok (if newsz = 0 then -1 else Lib.toInt newsz, u)

def pgflags (d : PgDir) (va : Nat) (flag : Pte → Bool) : Option Pte :=
  (d.entry (va / PGSIZE)).filter flag

def freevm (u : Uvm) : Except Panic Kmem := do
  let (_, u) ← deallocuvm u KERNBASE 0
  let k ← (List.range NPDENTRIES).foldlM (fun k i =>
    match u.pgdir.tab i with
    | none => .ok k
    | some page => k.kfree page) u.kmem
  k.kfree u.pgdir.page

/-- The loop of copyuvm; the flag tells whether it ended without goto bad. -/
def copyuvmLoop (pgdir : PgDir) : Nat → Uvm → Nat → Nat → Except Panic (Bool × Uvm)
  | 0, _, _, _ => .error .loops
  | n + 1, u, i, sz =>
    if i < sz then
      if (pgdir.tab (PDX i)).isNone then .error .copyuvmNoPte
      else match pgdir.pte (i / PGSIZE) with
        | none => copyuvmLoop pgdir n u ((i + PGSIZE) % 2 ^ 32) sz
        | some e =>
          match u.kmem.kalloc with
          | none => .ok (false, u)
          | some (mem, k) => do
            let k := { k with mem := update k.mem mem (k.mem e.pa) }
            let (r, u) ← mappages { u with kmem := k } i PGSIZE { e with pa := mem }
            if r < 0 then .ok (false, u)
            else copyuvmLoop pgdir n u ((i + PGSIZE) % 2 ^ 32) sz
    else .ok (true, u)

def copyuvm (pgdir : PgDir) (k : Kmem) (sz : Nat) : Except Panic (Option PgDir × Kmem) := do
  match ← setupkvm k with
  | (none, k) => .ok (none, k)
  | (some d, k) =>
    let (ok, u) ← copyuvmLoop pgdir (NPAGES + 1) ⟨d, k⟩ 0 sz
    if ok then .ok (some u.pgdir, u.kmem)
    else do
      let k ← freevm u
      .ok (none, k)

end MmapXv6
