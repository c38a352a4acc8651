import MmapXv6.Vm.Calls
import MmapXv6.Vm.Size

/-! The mappings of a process across exec. exec replaces pgdir and sz and leaves ommap,
so a mapping of the old program is one of the new program too: the fault handler reads
its file into the new image, and munmap and exit write pages of the new image to it and
free them. A run in which exec finds no live mapping has none of this. -/
namespace MmapXv6

open Lib (bind_ok Reaches)

/-- A process with a ghost field: the mappings that were made before the last exec. -/
structure Marked where
  vm : Vm
  old : Fin MAXMAPPEDFILES → Bool := fun _ => false

def markStep (s : Marked) : SizeAct → Except Panic Marked
  | .exec path argv => do
    let (r, t) ← exec s.vm path argv
    .ok ⟨t, if r = 0 then fun i => (t.proc.ommap i).pfile.isSome else s.old⟩
  | .space (.mmap fd addr) => do
    let (_, t) ← mmap s.vm fd addr
    -- the slot that is live now and was not before belongs to this program
    .ok ⟨t, fun i => s.old i && (s.vm.proc.ommap i).pfile.isSome⟩
  | .space a => do .ok ⟨← spaceStep s.vm a, s.old⟩

def ServedBy (s : Vm) (a : Nat) (i : Fin MAXMAPPEDFILES) : Prop :=
  (∃ write, s.admits a write true = none) ∧ ¬InWindow s.proc a ∧ mmapin s.proc.ommap a = some i

/-- A call of munmap, one of exit among them, that writes back and frees mapping i. -/
def UnmappedBy (s : Vm) (addr : Nat) (i : Fin MAXMAPPEDFILES) : Prop :=
  mappingAt s.proc.ommap addr = some i

def Severed (s : Marked) : Prop :=
  ∀ i, s.old i = true → (∀ a, ¬ServedBy s.vm a i) ∧ ∀ addr, ¬UnmappedBy s.vm addr i

def SizeAct.Unmapped (s : Vm) : SizeAct → Prop
  | .exec _ _ => ∀ i, ¬Live s.proc i
  | .space _ => True

section Steps
variable {s t : Vm}

theorem spaceStep_live {a : SpaceAct} (legal : a.Legal) (other : ∀ fd addr, a ≠ .mmap fd addr)
    (done : spaceStep s a = .ok t) {i : Fin MAXMAPPEDFILES} (live : Live t.proc i) :
    Live s.proc i := by
  cases a with
  | mmap fd addr => exact absurd rfl (other fd addr)
  | munmap addr =>
    obtain ⟨⟨r, x⟩, unmapped, eq⟩ := bind_ok.mp done
    cases eq
    unfold munmap at unmapped
    split at unmapped
    · cases unmapped
      exact live
    · split at unmapped
      · cases unmapped
        exact live
      · obtain ⟨x, at_, eq⟩ := bind_ok.mp unmapped
        cases eq
        obtain ⟨w, r, u, -, proc, -, -, rfl⟩ := munmapAt_cases at_
        have before : Live (w.setUvm u).proc i := (dropMmap_live live).2.1
        change ((w.proc.ommap i).pfile).isSome at before
        rw [proc] at before
        exact before
  | sbrk n =>
    obtain ⟨⟨r, x⟩, grown, eq⟩ := bind_ok.mp done
    cases eq
    have same : x.proc.ommap = s.proc.ommap := by
      cases growproc_resizing grown with
      | same => rfl
      | grow _ _ =>
        unfold Vm.resized
        split <;> rfl
      | shrink _ _ =>
        unfold Vm.resized
        split <;> rfl
    unfold Live at live ⊢
    rwa [← same]
  | fork slot =>
    obtain ⟨⟨child, x⟩, forked, eq⟩ := bind_ok.mp done
    unfold fork at forked
    split at forked
    · cases forked
      cases eq
      exact live
    · obtain ⟨⟨d, k⟩, copied, rest⟩ := bind_ok.mp forked
      cases d with
      | none =>
        obtain ⟨k', -, eq'⟩ := bind_ok.mp rest
        cases eq'
        cases eq
        exact live
      | some d =>
        cases rest
        cases eq
        unfold Live forkProc at live
        dsimp only at live
        split at live
        · exact live
        · rw [legal i] at live
          cases live
  | load a =>
    obtain ⟨⟨b, x⟩, loaded, eq⟩ := bind_ok.mp done
    cases eq
    unfold Live at live ⊢
    rwa [← (Wider.load legal loaded).ommap]
  | store a b =>
    obtain ⟨⟨ok, x⟩, stored, eq⟩ := bind_ok.mp done
    cases eq
    unfold Live at live ⊢
    rwa [← (Wider.store legal stored).ommap]
  | outside kmem fs ofile =>
    cases done
    exact live

theorem exec_ommap {path : Path} {argv : List (List UInt8)} {r : Int}
    (done : exec s path argv = .ok (r, t)) : t.proc.ommap = s.proc.ommap := by
  cases exec_end done with
  | file _ => rfl
  | kvm _ _ _ => rfl
  | load _ _ _ => rfl
  | stack _ _ _ _ => rfl
  | args _ _ _ _ ended => cases ended <;> rfl

theorem markStep_exec {s : Marked} {path : Path} {argv : List (List UInt8)} {t : Vm}
    (done : exec s.vm path argv = .ok (0, t)) :
    markStep s (.exec path argv) = .ok ⟨t, fun i => (t.proc.ommap i).pfile.isSome⟩ := by
  unfold markStep
  dsimp only
  rw [done]
  rfl

def Fresh (s : Marked) : Prop := ∀ i, Live s.vm.proc i → s.old i = false

theorem fresh_step {s t : Marked} {a : SizeAct} (fresh : Fresh s) (legal : a.Legal)
    (unmapped : a.Unmapped s.vm) (done : markStep s a = .ok t) : Fresh t := by
  have space : ∀ {a : SpaceAct}, a.Legal → (∀ fd addr, a ≠ .mmap fd addr) →
      (do .ok ⟨← spaceStep s.vm a, s.old⟩ : Except Panic Marked) = .ok t → Fresh t := by
    intro a legal other done
    obtain ⟨x, ran, eq⟩ := bind_ok.mp done
    cases eq
    exact fun i live => fresh i (spaceStep_live legal other ran live)
  cases a with
  | exec path argv =>
    obtain ⟨⟨r, x⟩, ran, eq⟩ := bind_ok.mp done
    cases eq
    intro i live
    have before : Live s.vm.proc i := by
      unfold Live at live ⊢
      rwa [← exec_ommap ran]
    exact absurd before (unmapped i)
  | space a =>
    have allowed : a.Legal := legal
    cases a with
    | mmap fd addr =>
      obtain ⟨⟨r, x⟩, mapped, eq⟩ := bind_ok.mp done
      cases eq
      intro i live
      dsimp only
      cases before : (s.vm.proc.ommap i).pfile.isSome with
      | false => rw [Bool.and_false]
      | true => rw [fresh i before, Bool.false_and]
    | munmap addr => exact space allowed (by simp) done
    | sbrk n => exact space allowed (by simp) done
    | fork slot => exact space allowed (by simp) done
    | load a => exact space allowed (by simp) done
    | store a b => exact space allowed (by simp) done
    | outside kmem fs ofile => exact space allowed (by simp) done

theorem Fresh.severed {s : Marked} (fresh : Fresh s) : Severed s := by
  intro i old
  have dead : ¬Live s.vm.proc i := fun live => by
    rw [fresh i live] at old
    cases old
  refine ⟨fun a served => dead (mmapin_some served.2.2).1, fun addr unmapped => dead ?_⟩
  exact (mappingAt_some unmapped).2.1

end Steps

/-- Before its first exec a process has no mapping from before an exec. -/
def NoneOld (s : Marked) : Prop := ∀ i, s.old i = false

/-- In every run in which exec finds no live mapping, no mapping outlives an exec. -/
theorem exec_severs_mappings {s : Marked}
    (run : Reaches markStep (fun s a => a.Legal ∧ a.Unmapped s.vm) NoneOld s) : Severed s := by
  refine (run.invariant Fresh ?_ ?_).severed
  · exact fun s none i _ => none i
  · exact fun s a t fresh allowed done => fresh_step fresh allowed.1 allowed.2 done

section Program
variable {s : Vm} {w : Uvm}

structure Begun (s t : Vm) (w : Uvm) : Prop where
  pgdir : t.proc.pgdir = w.pgdir
  sz : t.proc.sz = 0x9000
  sstack : t.proc.sstack = s.proc.sstack
  ommap : t.proc.ommap = s.proc.ommap
  ofile : t.proc.ofile = s.proc.ofile
  fs : t.fs = s.fs
  free : w.kmem.freelist.length ≤ t.kmem.freelist.length

theorem execArgs_none (name : List UInt8) (entry : Nat) (stack : StackOnly w)
    (old : ∀ k : Kmem, k.freelist = w.kmem.freelist → k.kend = w.kmem.kend →
      Uvm.Valid ⟨s.proc.pgdir, k⟩) :
    ∃ t, execArgs s name entry w 0x9000 [] = .ok (0, t) ∧ Begun s t w := by
  obtain ⟨e, top, user, -⟩ := stack.top
  have table : (w.pgdir.tab 0).isSome := PgDir.table_of_entry top
  have found : w.pgdir.pte 8 = some e := by
    rw [← w.pgdir.entry_of_table (v := 8) table]
    exact top
  have looked : uva2ka w.pgdir (PGROUNDDOWN 0x8FF0) = .ok (some e.pa) := by
    have page : PGROUNDDOWN 0x8FF0 = 0x8000 := by decide
    have dir : PDX 0x8000 = 0 := by decide
    have index : 0x8000 / PGSIZE = 8 := by decide
    unfold uva2ka
    rw [page, dir, index, found, if_neg (by simpa [Option.isSome_iff_ne_none] using table)]
    simp [user]
  have copied : ∃ mem, copyout w 0x8FF0 (wordsBytes [0xffffffff, 0, 0x8FFC, 0]) =
      .ok (0, { w with kmem := { w.kmem with mem := mem } }) := by
    have length : (wordsBytes [0xffffffff, 0, 0x8FFC, 0]).length = 16 := by decide
    unfold copyout
    rw [length, copyoutLoop, if_neg (by decide), looked, Lib.ok_bind]
    dsimp only
    have whole : 16 - (if 16 < PGSIZE - 0x8FF0 % PGSIZE then 16 else PGSIZE - 0x8FF0 % PGSIZE) =
        0 := by decide
    rw [whole, copyoutLoop, if_pos rfl]
    exact ⟨_, rfl⟩
  obtain ⟨mem, copied⟩ := copied
  obtain ⟨k, freed⟩ := freevm_returns (old { w.kmem with mem := mem } rfl rfl)
  unfold execArgs
  rw [pushArgs, Lib.ok_bind]
  dsimp only
  have sp : (0x9000 + 2 ^ 32 - (3 + ([] : List Nat).length + 1) * 4) % 2 ^ 32 = 0x8FF0 := by decide
  have words : [0xffffffff, ([] : List Nat).length,
      (0x9000 + 2 ^ 32 - (([] : List Nat).length + 1) * 4) % 2 ^ 32] ++
      [] ++ [0] = [0xffffffff, 0, 0x8FFC, 0] := by decide
  rw [if_pos rfl, sp, words, copied, Lib.ok_bind]
  dsimp only
  rw [if_neg (by decide), freed]
  exact ⟨_, rfl, rfl, rfl, rfl, rfl, rfl, rfl, (freevm_frees freed).length_le⟩

theorem program_execs (valid : s.uvm.Valid) (legal : s.kmem.Legal) (file : s.fs.inode 0 = program)
    (room : KVMPAGES + 2 ≤ s.kmem.freelist.length) :
    ∃ t w, exec s programPath [] = .ok (0, t) ∧ StackOnly w ∧
      Begun { s with proc := { s.proc with sstack := 0x1000 } } t w ∧
      s.kmem.freelist.length ≤ w.kmem.freelist.length + KVMPAGES + 2 := by
  obtain ⟨w, stack, same, used, run⟩ :=
    exec_program (s := s) (i := 0) programPath rfl file legal room []
  have old : ∀ k : Kmem, k.freelist = w.kmem.freelist → k.kend = w.kmem.kend →
      Uvm.Valid ⟨s.proc.pgdir, k⟩ := by
    intro k list end_
    refine ⟨by rw [end_]; exact stack.valid.zero, fun x pos => ?_⟩
    rw [end_]
    by_cases free : x ∈ k.freelist
    · exact stack.valid.page x (Uvm.count_free (list ▸ free))
    · unfold Uvm.count at pos
      rw [List.count_eq_zero_of_not_mem free, Nat.add_zero] at pos
      rw [same]
      exact valid.page x (Nat.lt_add_right _ pos)
  obtain ⟨t, done, begun⟩ := execArgs_none
    (s := { s with proc := { s.proc with sstack := 0x1000 } }) programPath.last 0 stack old
  exact ⟨t, w, run.trans done, stack, begun, used⟩

/-- A process with a page for results at 0x8000 and a file of 52 bytes open as descriptor 0. -/
structure CanMap (s : Vm) : Prop where
  result : ∃ e, s.entry 8 = some e ∧ e.writable = true
  opened : openFile s.proc 0 = some 0
  inode : (s.fs.file 0).ip = some 0
  length : (s.fs.inode 0).size = 52
  slot : freeMmap s.proc.ommap = some 0

theorem CanMap.mmap {s : Vm} (h : CanMap s) (fits : s.proc.sz + 52 + (PGSIZE - 1) < 2 ^ 32) :
    ∃ t, spaceStep s (.mmap 0 0x8FF8) = .ok t ∧ t.proc.sz = (s.proc.sz + 52 + 4095) / 4096 * 4096 ∧
      t.proc.pgdir.tab = s.proc.pgdir.tab ∧ t.kmem.freelist = s.kmem.freelist ∧
      s.kmem.Keeps t.kmem ∧ Live t.proc 0 := by
  obtain ⟨e, top, writable⟩ := h.result
  obtain ⟨t, stored, touched⟩ := storeWord_resident (s := s.addMmap 0 0 52) (w := s.proc.sz) top
    writable (show 8 * PGSIZE ≤ 0x8FF8 by decide) (by decide) (by decide)
  have mapped : MmapXv6.mmap s 0 0x8FF8 = .ok (0, t) := by
    unfold MmapXv6.mmap
    rw [h.opened]
    rw [h.slot]
    dsimp only
    rw [h.inode]
    dsimp only
    rw [h.length, stored]
    rfl
  refine ⟨t, ?_, ?_, touched.tab, touched.free, (storeWord_moves stored).keeps, ?_⟩
  · unfold spaceStep
    dsimp only
    rw [mapped]
    rfl
  · rw [touched.sz, addMmap_sz fits]
  · rw [Live, touched.ommap]
    rfl

theorem Begun.canMap {t : Vm} (begun : Begun s t w) (stack : StackOnly w)
    (opened : openFile s.proc 0 = some 0) (inode : (s.fs.file 0).ip = some 0)
    (length : (s.fs.inode 0).size = 52) (slot : freeMmap s.proc.ommap = some 0) : CanMap t := by
  obtain ⟨e, top, -, writable⟩ := stack.top
  refine ⟨⟨e, by rw [Vm.entry, begun.pgdir, top], writable⟩, ?_, ?_, ?_, ?_⟩
  · rw [openFile, begun.ofile]
    exact opened
  · rw [begun.fs]
    exact inode
  · rw [begun.fs]
    exact length
  · rw [begun.ommap]
    exact slot

end Program

theorem markStep_mmap {s : Marked} {fd : Int} {addr : Nat} {t : Vm}
    (done : spaceStep s.vm (.mmap fd addr) = .ok t) :
    ∃ old, markStep s (.space (.mmap fd addr)) = .ok ⟨t, old⟩ := by
  obtain ⟨⟨r, x⟩, mapped, eq⟩ := bind_ok.mp done
  cases eq
  exact ⟨_, by rw [markStep, mapped]; rfl⟩

theorem loader_remaps : ∃ x s mem, mmap loader 0 0x9FF0 = .ok (0, x) ∧
    munmap x 0xA000 = .ok (0, s) ∧
    (∀ i, ¬Live s.proc i) ∧ freeMmap s.proc.ommap = some 0 ∧ openFile s.proc 0 = some 0 ∧
    s.fs = loader.fs ∧ s.kmem = { loader.kmem with mem := mem } ∧ s.uvm.Valid := by
  let stored (d : PgDir) : PgDir := d.set 9 (some ⟨0x309, true, true, true⟩)
  obtain ⟨x, s, mem, mapped, unmapped, dead, slot, opened, fs, kmem, pgdir⟩ : ∃ x s mem,
      mmap loader 0 0x9FF0 = .ok (0, x) ∧ munmap x 0xA000 = .ok (0, s) ∧ (∀ i, ¬Live s.proc i) ∧
      freeMmap s.proc.ommap = some 0 ∧ openFile s.proc 0 = some 0 ∧ s.fs = loader.fs ∧
      s.kmem = { loader.kmem with mem := mem } ∧
      s.proc.pgdir = stored (stored (stored (stored imagePgdir))) :=
    ⟨_, _, _, rfl, rfl, by decide, by decide, rfl, rfl, rfl, rfl⟩
  refine ⟨x, s, mem, mapped, unmapped, dead, slot, opened, fs, kmem, ?_⟩
  rw [Vm.uvm, kmem, pgdir]
  refine imagePgdir_valid rfl rfl (fun {v} e user there => ?_) rfl loader_legal.page
  by_cases here : v = 9
  · subst here
    cases there
    exact .inr rfl
  · simp only [stored, PgDir.entry_set_ne _ _ here] at there
    exact imagePgdir_pages user there

/-- A process maps a file, unmaps it, calls exec and maps a file again. -/
theorem exec_severs_mappings_unmapped : ∃ (x s : Vm) (t u : Marked),
    mmap loader 0 0x9FF0 = .ok (0, x) ∧ munmap x 0xA000 = .ok (0, s) ∧
    exec s programPath [] = .ok (0, t.vm) ∧ markStep t (.space (.mmap 0 0x8FF8)) = .ok u ∧
    Live u.vm.proc 0 ∧ Severed t ∧ Severed u := by
  obtain ⟨x, s, mem, mapped, unmapped, dead, slot, opened, fs, kmem, valid⟩ := loader_remaps
  have legal : s.kmem.Legal := kmem ▸ ⟨loader_legal.zero, loader_legal.page, loader_legal.data⟩
  obtain ⟨t, w, ran, stack, begun, -⟩ := program_execs valid legal (by rw [fs]; rfl)
    (by rw [kmem]; exact show KVMPAGES + 2 ≤ loader.kmem.freelist.length by decide)
  obtain ⟨u, again, -, -, -, -, live⟩ :=
    (begun.canMap stack opened (by rw [fs]; rfl) (by rw [fs]; rfl) slot).mmap
      (by rw [begun.sz]; decide)
  obtain ⟨old, remapped⟩ := markStep_mmap (s := ⟨t, fun i => (t.proc.ommap i).pfile.isSome⟩) again
  have start : Reaches markStep (fun s a => a.Legal ∧ a.Unmapped s.vm) NoneOld
      ⟨loader, fun _ => false⟩ :=
    .start fun _ => rfl
  have first := start.step (a := SizeAct.space (.mmap 0 0x9FF0)) (t := ⟨x, fun _ => false⟩)
    ⟨show 0x9FF0 + 4 ≤ 2 ^ 32 by decide, trivial⟩ (by rw [markStep, mapped]; rfl)
  have second := first.step (a := SizeAct.space (.munmap 0xA000)) (t := ⟨s, fun _ => false⟩)
    ⟨show 0xA000 < 2 ^ 32 by decide, trivial⟩
    (by unfold markStep spaceStep; dsimp only; rw [unmapped]; rfl)
  have third := second.step (a := SizeAct.exec programPath []) ⟨trivial, dead⟩ (markStep_exec ran)
  exact ⟨x, s, _, _, mapped, unmapped, ran, remapped, live, exec_severs_mappings third,
    exec_severs_mappings (third.step (a := SizeAct.space (.mmap 0 0x8FF8))
      ⟨show 0x8FF8 + 4 ≤ 2 ^ 32 by decide, trivial⟩ remapped)⟩

def mapper : Vm :=
  { loader with proc := { loader.proc with
      sz := 0xB000, ommap := fun i => if i.val = 0 then ⟨some 0, 0xA000, 52⟩ else {} } }

/-- The new program's access to an address above its image is served from the file that
the old program mapped there, and exit unmaps that address. -/
theorem exec_keeps_mapping : ∃ t, markStep ⟨mapper, fun _ => false⟩ (.exec programPath []) = .ok t ∧
    ServedBy t.vm 0xA010 0 ∧ UnmappedBy t.vm 0xA000 0 ∧ ¬Severed t := by
  obtain ⟨t, w, ran, stack, begun, -⟩ :=
    program_execs (s := mapper) loader_valid loader_legal rfl (by decide)
  have ommap : t.proc.ommap = mapper.proc.ommap := begun.ommap
  have served : ServedBy t 0xA010 0 := by
    refine ⟨⟨false, ?_⟩, fun window => ?_, ?_⟩
    · unfold Vm.admits
      have absent : t.entry (0xA010 / PGSIZE) = none := by
        unfold Vm.entry
        rw [begun.pgdir]
        exact stack.others 10 (by decide) (by decide)
      rw [absent]
      rfl
    · have := window.2
      rw [begun.sstack] at this
      exact absurd this (by decide)
    · rw [ommap]
      decide
  refine ⟨_, markStep_exec ran, served, ?_, fun severed => ?_⟩
  · change mappingAt t.proc.ommap 0xA000 = some 0
    rw [ommap]
    decide
  · refine (severed 0 ?_).1 0xA010 served
    rw [ommap]
    rfl

end MmapXv6
