import MmapXv6.Vm.Covered

/-! The free pages over a call that fails for want of memory. allocuvm, copyuvm and
setupkvm each have a point at which pages are taken that nothing remembers: setupkvm
leaves its whole directory, and the other two the last page when there is none for its
page table. At all other points everything is back or in the directory of the process. -/
namespace MmapXv6

open Lib (bind_ok)

def Accounted (k : Kmem) (w : Uvm) : Prop :=
  ∀ x ∈ k.freelist, x ∈ w.kmem.freelist ∨ 0 < w.pgdir.count x

def Uvm.Sole (u : Uvm) : Prop := ∀ x, u.count x ≤ 1

/-- Whether a copy of sz bytes loses pages, by the number of free pages before it. -/
def copyLoses (parent : PgDir) (sz free : Nat) : Bool :=
  decide (0 < free) && (decide (free < KVMPAGES) ||
    copyStarves parent kernelTab (pagesTo 0 sz) 0 (free - KVMPAGES))

def ExecLoses (s : Vm) (path : Path) : Prop :=
  ∃ i, path.ip = some i ∧ (s.fs.inode i).isElf ∧ 0 < s.kmem.freelist.length ∧
    (s.kmem.freelist.length < KVMPAGES ∨ ((s.fs.inode i).plan s.kmem.freelist.length).1 = true ∨
      ∃ sz A, ((s.fs.inode i).plan s.kmem.freelist.length).2 = some (sz, A) ∧
        A.starves (stackPage sz) ((stackPage sz + PGSIZE) % 2 ^ 32) = true)

section Accounted
variable {u w : Uvm} {k k' : Kmem} {lost : Prop}

theorem accounted_iff {x : Nat} : x ∈ w.kmem.freelist ∨ 0 < w.pgdir.count x ↔ 0 < w.count x := by
  rw [← List.count_pos_iff]
  unfold Uvm.count
  omega

theorem accounted_of_count (more : ∀ x, u.count x ≤ w.count x) : Accounted u.kmem w :=
  fun x free => accounted_iff.mpr (lt_of_lt_of_le (Uvm.count_free free) (more x))

theorem not_accounted {x : Nat} (sole : u.Sole) (free : x ∈ u.kmem.freelist)
    (less : w.count x < u.count x) :
    ¬Accounted u.kmem w := by
  intro kept
  have pos := accounted_iff.mp (kept x free)
  have one := sole x
  omega

structure Tally (k k' : Kmem) (lost : Prop) : Prop where
  kept : ¬lost → ∀ x, k'.freelist.count x = k.freelist.count x
  gone : lost → ∃ x ∈ k.freelist, k'.freelist.count x < k.freelist.count x

theorem Tally.returned_iff (h : Tally k k' lost) (nodup : k.freelist.Nodup) :
    (∀ x ∈ k.freelist, x ∈ k'.freelist) ↔ ¬lost := by
  constructor
  · intro all yes
    obtain ⟨x, free, less⟩ := h.gone yes
    have one := List.nodup_iff_count_le_one.mp nodup x
    have pos := List.count_pos_iff.mpr (all x free)
    omega
  · intro no x free
    rw [← List.count_pos_iff, h.kept no x]
    exact List.count_pos_iff.mpr free

theorem Tally.accounted_iff {d : PgDir} (h : Tally k k' lost) (sole : (⟨d, k⟩ : Uvm).Sole) :
    Accounted k ⟨d, k'⟩ ↔ ¬lost := by
  constructor
  · intro kept yes
    obtain ⟨x, free, less⟩ := h.gone yes
    refine not_accounted (u := ⟨d, k⟩) sole free ?_ kept
    exact Nat.add_lt_add_left less _
  · intro no x free
    refine .inl ?_
    rw [← List.count_pos_iff, h.kept no x]
    exact List.count_pos_iff.mpr free

theorem setupkvm_tally (data : k.kdata.1 % PGSIZE = 0) (failed : setupkvm k = .ok (none, k')) :
    k.freelist.length < KVMPAGES ∧ Tally k k' (0 < k.freelist.length) := by
  cases setupkvm_kvmMade data failed with
  | none short empty _ _ _ =>
    refine ⟨short, fun no x => ?_, fun yes => ?_⟩
    · rw [empty, List.eq_nil_of_length_eq_zero (Nat.eq_zero_of_not_pos no)]
    · obtain ⟨x, mem⟩ := List.exists_mem_of_length_pos yes
      refine ⟨x, mem, ?_⟩
      rw [empty, List.count_nil]
      exact List.count_pos_iff.mpr mem

theorem copyuvm_tally {parent : PgDir} {sz : Nat} (data : k.kdata.1 % PGSIZE = 0)
    (legal : KERNBASE < sz → (parent.entry UPAGES).isSome)
    (failed : copyuvm parent k sz = .ok (none, k')) :
    Tally k k' (copyLoses parent sz k.freelist.length = true) := by
  obtain ⟨⟨d, m⟩, setup, rest⟩ := bind_ok.mp failed
  cases d with
  | none =>
    cases rest
    obtain ⟨short, tally⟩ := setupkvm_tally data setup
    have same : copyLoses parent sz k.freelist.length = true ↔ 0 < k.freelist.length := by
      simp [copyLoses, short]
    exact ⟨fun no => tally.kept (mt same.mpr no), fun yes => tally.gone (same.mp yes)⟩
  | some d =>
    cases setupkvm_kvmMade data setup with
    | some length has _ kernel count _ _ _ =>
      obtain ⟨⟨ok, w⟩, loop, rest⟩ := bind_ok.mp rest
      have copies :=
        copyuvmLoop_copies (by decide) (Nat.zero_le _) legal (kernel UPAGES (by decide)) loop
      have starved : (⟨d, m⟩ : Uvm).copyStarves parent 0 sz = copyLoses parent sz
          k.freelist.length := by
        unfold Uvm.copyStarves copyLoses
        rw [funext has, length]
        simp [KVMPAGES]
      dsimp only at rest
      split at rest
      · cases rest
      · obtain ⟨f, freed, eq⟩ := bind_ok.mp rest
        cases eq
        rw [← starved]
        refine ⟨fun no x => ?_, fun yes => ?_⟩
        · have moves : Moves False False ⟨d, m⟩ w := copies.moves.mono no id
          rw [(freevm_frees freed).count, moves.count_eq, count]
        · obtain ⟨x, mem, less⟩ := copies.lost yes
          have pos := Uvm.count_free (u := ⟨d, m⟩) mem
          rw [count] at less pos
          rw [← (freevm_frees freed).count] at less
          exact ⟨x, List.count_pos_iff.mp pos, less⟩

end Accounted

section Calls
variable {s t : Vm} {u w : Uvm}

theorem allocuvm_kept {oldsz newsz : Nat} (sole : u.Sole)
    (failed : allocuvm u oldsz newsz = .ok (0, w)) :
    Accounted u.kmem w ↔ u.acct.starves oldsz newsz = false := by
  rw [← Bool.not_eq_true]
  constructor
  · intro kept yes
    obtain ⟨x, free, less⟩ := allocuvm_lost failed yes
    exact not_accounted sole free less kept
  · intro no
    have moves : Moves False False u w := (allocuvm_starves failed).mono no id
    exact accounted_of_count fun x => Nat.le_of_eq (moves.count_eq x).symm

theorem growproc_kept {n : Int} (sole : s.uvm.Sole) (pos : 0 < n)
    (failed : growproc s n = .ok (-1, t)) :
    Accounted s.kmem t.uvm ↔ s.uvm.acct.starves s.proc.sz (brk s.proc n) = false := by
  unfold growproc at failed
  rw [if_pos pos] at failed
  obtain ⟨⟨r, w⟩, grown, eq⟩ := bind_ok.mp failed
  dsimp only at eq
  split at eq
  · rename_i zero
    cases zero
    cases eq
    exact allocuvm_kept sole grown
  · cases eq

theorem fork_tally {slot : Proc} (data : s.kmem.kdata.1 % PGSIZE = 0)
    (legal : KERNBASE < s.proc.sz → (s.proc.pgdir.entry UPAGES).isSome)
    (failed : fork s slot = .ok (none, t)) : t.proc = s.proc ∧
      Tally s.kmem t.kmem
      (copyLoses s.proc.pgdir s.proc.sz (s.kmem.freelist.length - 1) = true) := by
  unfold fork at failed
  cases taken : s.kmem.kalloc with
  | none =>
    rw [taken] at failed
    cases failed
    refine ⟨rfl, fun _ _ => rfl, fun yes => ?_⟩
    rw [kalloc_none taken] at yes
    simp [copyLoses] at yes
  | some q =>
    obtain ⟨kstack, k⟩ := q
    rw [taken] at failed
    have list := (kalloc_some taken).1
    have hands := kalloc_hands taken (k.mem kstack)
    obtain ⟨⟨d, m⟩, copied, rest⟩ := bind_ok.mp failed
    cases d with
    | some d => cases rest
    | none =>
      obtain ⟨f, freed, eq⟩ := bind_ok.mp rest
      cases eq
      have tally := copyuvm_tally (show k.kdata.1 % PGSIZE = 0 by
        rw [show k.kdata = s.kmem.kdata from hands.kdata]
        exact data) legal copied
      have length : s.kmem.freelist.length - 1 = k.freelist.length := by rw [list]; rfl
      have before : ∀ x, s.kmem.freelist.count x = k.freelist.count x + if x = kstack then 1 else
          0 := hands.count
      have after := kfree_count freed
      rw [length]
      refine ⟨rfl, fun no x => ?_, fun yes => ?_⟩
      · rw [after, before, tally.kept no]
      · obtain ⟨x, mem, less⟩ := tally.gone yes
        refine ⟨x, by rw [list]; exact List.mem_cons_of_mem _ mem, ?_⟩
        rw [after, before]
        omega

theorem NewDir.tally {lost : Prop} {k : Kmem} (new : NewDir s u)
    (kept : ¬lost → Moves False True u w)
    (gone : lost → ∃ x, w.count x < u.count x) (freed : freevm w = .ok k) :
    Tally s.kmem k lost := by
  refine ⟨fun no x => ?_, fun yes => ?_⟩
  · rw [(freevm_frees freed).count, (kept no).count_eq, new.count]
  · obtain ⟨x, less⟩ := gone yes
    rw [new.count, ← (freevm_frees freed).count] at less
    exact ⟨x, List.count_pos_iff.mp (Nat.zero_lt_of_lt less), less⟩

theorem Opens.loses_iff {path : Path} {i : Fin NINODE} {ok : Bool} {sz : Nat}
    (opens : Opens s path i u) (new : NewDir s u)
    (loaded : loadSegments (s.fs.inode i) (s.fs.inode i).phnum (s.fs.inode i).phoff 0 u =
      .ok (ok, sz, w)) :
    ExecLoses s path ↔
      (loadPlan (s.fs.inode i) (s.fs.inode i).phnum (s.fs.inode i).phoff 0 u.acct).1 = true ∨
      ok = true ∧ w.acct.starves (stackPage sz) ((stackPage sz + PGSIZE) % 2 ^ 32) = true := by
  have room := new.room
  have plan := new.plan loaded
  have acct : (s.fs.inode i).plan s.kmem.freelist.length =
      loadPlan (s.fs.inode i) (s.fs.inode i).phnum (s.fs.inode i).phoff 0 u.acct := by
    unfold Inode.plan
    rw [new.acct]
  constructor
  · rintro ⟨j, found, -, -, short | lost | ⟨size, A, image, starved⟩⟩
    · omega
    · rw [opens.1] at found
      cases found
      exact .inl (acct ▸ lost)
    · rw [opens.1] at found
      cases found
      rw [plan] at image
      cases ok with
      | false => cases image
      | true =>
        cases image
        exact .inr ⟨rfl, starved⟩
  · intro lost
    refine ⟨i, opens.1, opens.2.1, lt_of_lt_of_le (by decide) room, .inr ?_⟩
    rcases lost with lost | ⟨rfl, starved⟩
    · exact .inl (acct ▸ lost)
    · exact .inr ⟨sz, w.acct, plan, starved⟩

theorem NewDir.stack {path : Path} {i : Fin NINODE} {sz r : Nat} {v : Uvm} (new : NewDir s u)
    (opens : Opens s path i u)
    (loaded : loadSegments (s.fs.inode i) (s.fs.inode i).phnum (s.fs.inode i).phoff 0 u =
      .ok (true, sz, v))
    (grown : allocuvm v (stackPage sz) ((stackPage sz + PGSIZE) % 2 ^ 32) = .ok (r, w)) :
    (¬ExecLoses s path → Moves False True u w) ∧
      (ExecLoses s path → ∃ x, w.count x < u.count x) := by
  have load := new.loaded loaded
  have same := opens.loses_iff new loaded
  have segments := load.moves True (.inl trivial)
  have page : Moves _ True v w := allocuvm_starves grown
  refine ⟨fun no => ?_, fun yes => ?_⟩
  · rw [same] at no
    push Not at no
    exact (segments.mono no.1 id).trans (page.mono (no.2 rfl) id)
  · rcases same.mp yes with lost | ⟨-, starved⟩
    · obtain ⟨x, less⟩ := load.lost lost
      exact ⟨x, lt_of_le_of_lt (page.count_le x) less⟩
    · obtain ⟨x, -, less⟩ := allocuvm_lost grown starved
      exact ⟨x, lt_of_lt_of_le less (segments.count_le x)⟩

theorem exec_tally {path : Path} {argv : List (List UInt8)} (data : s.kmem.kdata.1 % PGSIZE = 0)
    (failed : exec s path argv = .ok (-1, t)) :
    t.proc.pgdir = s.proc.pgdir ∧ Tally s.kmem t.kmem (ExecLoses s path) := by
  cases exec_end failed with
  | file bad =>
    refine ⟨rfl, fun _ _ => rfl, fun yes => ?_⟩
    obtain ⟨i, found, elf, -⟩ := yes
    exact absurd elf (bad i found)
  | kvm found elf setup =>
    obtain ⟨short, tally⟩ := setupkvm_tally data setup
    have same : ExecLoses s path ↔ 0 < s.kmem.freelist.length :=
      ⟨fun ⟨_, _, _, pos, _⟩ => pos, fun pos => ⟨_, found, elf, pos, .inl short⟩⟩
    exact ⟨rfl, fun no => tally.kept (mt same.mpr no), fun yes => tally.gone (same.mp yes)⟩
  | load opens loaded freed =>
    have new := opens.newDir data
    have load := new.loaded loaded
    have same := opens.loses_iff new loaded
    refine ⟨rfl, new.tally (fun no => ?_) (fun yes => ?_) freed⟩
    · exact (load.moves True (.inl trivial)).mono (fun lost => no (same.mpr (.inl lost))) id
    · exact load.lost ((same.mp yes).resolve_right fun h => by cases h.1)
  | stack opens loaded grown freed =>
    obtain ⟨kept, gone⟩ := (opens.newDir data).stack opens loaded grown
    exact ⟨rfl, (opens.newDir data).tally kept gone freed⟩
  | args opens loaded grown _ ended =>
    obtain ⟨kept, gone⟩ := (opens.newDir data).stack opens loaded grown
    cases ended with
    | bad copied freed =>
      have args : Moves False True _ _ := copied.1 True (.inl trivial)
      refine ⟨rfl, (opens.newDir data).tally (fun no => (kept no).trans args) (fun yes => ?_) freed⟩
      obtain ⟨x, less⟩ := gone yes
      exact ⟨x, lt_of_le_of_lt (args.count_le x) less⟩

end Calls

/-- Where a call fails, the pages that were free are free or in the directory of the
process if and only if memory did not run out at one of those points. -/
theorem failed_calls_keep_pages (s t : Vm) (u w : Uvm) (k k' : Kmem) (parent : PgDir)
    (oldsz newsz sz : Nat) (n : Int) (slot : Proc) (path : Path) (argv : List (List UInt8)) :
    (k.kdata.1 % PGSIZE = 0 → k.freelist.Nodup → setupkvm k = .ok (none, k') →
      ((∀ x ∈ k.freelist, x ∈ k'.freelist) ↔ k.freelist.length = 0)) ∧
    (u.Sole → allocuvm u oldsz newsz = .ok (0, w) →
      (Accounted u.kmem w ↔ u.acct.starves oldsz newsz = false)) ∧
    (k.kdata.1 % PGSIZE = 0 → k.freelist.Nodup → (KERNBASE < sz → (parent.entry UPAGES).isSome) →
      copyuvm parent k sz = .ok (none, k') →
      ((∀ x ∈ k.freelist, x ∈ k'.freelist) ↔ copyLoses parent sz k.freelist.length = false)) ∧
    (s.uvm.Sole → 0 < n → growproc s n = .ok (-1, t) →
      (Accounted s.kmem t.uvm ↔ s.uvm.acct.starves s.proc.sz (brk s.proc n) = false)) ∧
    (s.uvm.Sole → s.kmem.kdata.1 % PGSIZE = 0 →
      (KERNBASE < s.proc.sz → (s.proc.pgdir.entry UPAGES).isSome) → fork s slot = .ok (none, t) →
      (Accounted s.kmem t.uvm ↔
        copyLoses s.proc.pgdir s.proc.sz (s.kmem.freelist.length - 1) = false)) ∧
    (s.uvm.Sole → s.kmem.kdata.1 % PGSIZE = 0 → StaysInside s path →
      exec s path argv = .ok (-1, t) → (Accounted s.kmem t.uvm ↔ ¬ExecLoses s path)) := by
  refine ⟨fun data nodup failed => ?_, allocuvm_kept, fun data nodup legal failed => ?_,
    growproc_kept, fun sole data legal failed => ?_, fun sole data _ failed => ?_⟩
  · rw [(setupkvm_tally data failed).2.returned_iff nodup]
    omega
  · rw [(copyuvm_tally data legal failed).returned_iff nodup, Bool.not_eq_true]
  · obtain ⟨proc, tally⟩ := fork_tally data legal failed
    rw [← Bool.not_eq_true, ← tally.accounted_iff sole]
    unfold Vm.uvm
    rw [proc]
  · obtain ⟨pgdir, tally⟩ := exec_tally data failed
    rw [← tally.accounted_iff sole]
    unfold Vm.uvm
    rw [pgdir]

def onePageDir : PgDir :=
  (({ page := 0x400 } : PgDir).addTable 0 0x401).set 0 (some (userPte 0x402))

def scarce (n : Nat) : Vm where
  proc := { sz := PGSIZE, pgdir := onePageDir }
  kmem := { freelist := List.range' 0x900 n }
  fs := loader.fs

section Scarce

theorem onePageDir_count (x : Nat) : onePageDir.count x =
    (if 0x400 = x then 1 else 0) + (if x = 0x401 then 1 else 0) + if x = 0x402 then 1 else 0 := by
  unfold onePageDir
  rw [PgDir.count_map (by decide) (by decide) (by decide), PgDir.count_addTable (by decide) rfl,
    PgDir.count_fresh]
  rfl

theorem count_range' (n x : Nat) : (List.range' 0x900 n).count x ≤ 1 ∧
    (0 < (List.range' 0x900 n).count x → 0x900 ≤ x ∧ x < 0x900 + n) :=
  ⟨List.nodup_iff_count_le_one.mp List.nodup_range' x, fun pos =>
    List.mem_range'_1.mp (List.count_pos_iff.mp pos)⟩

theorem scarce_sole (n : Nat) : (scarce n).uvm.Sole := by
  intro x
  obtain ⟨once, list⟩ := count_range' n x
  change onePageDir.count x + (List.range' 0x900 n).count x ≤ 1
  rw [onePageDir_count]
  split_ifs <;> omega

theorem copyuvm_out {k : Kmem} (legal : k.Legal) (room : k.freelist.length = KVMPAGES) :
    ∃ k', copyuvm onePageDir k PGSIZE = .ok (none, k') ∧ k'.kend = k.kend := by
  obtain ⟨d, k', setup, made⟩ := setupkvm_made legal.data
  cases d with
  | none =>
    cases made with
    | none short _ _ _ _ => omega
  | some d =>
    obtain ⟨k'', freed⟩ := freevm_returns (legal.made made)
    cases made with
    | some length _ _ _ _ kend _ _ =>
      refine ⟨k'', ?_, (freevm_keeps freed).kend.trans kend⟩
      have empty : k'.kalloc = none := by
        unfold Kmem.kalloc
        rw [List.length_eq_zero_iff.mp (show k'.freelist.length = 0 by omega)]
      have stops : copyuvmLoop onePageDir (NPAGES + 1) ⟨d, k'⟩ 0 PGSIZE = .ok (false, ⟨d, k'⟩) := by
        rw [copyuvmLoop, if_pos (by decide), if_neg (by decide),
          show onePageDir.pte (0 / PGSIZE) = some (userPte 0x402) by decide]
        dsimp only
        rw [empty]
      unfold copyuvm
      rw [setup]
      dsimp only [Lib.ok_bind]
      rw [stops]
      dsimp only [Lib.ok_bind]
      rw [if_neg (by decide), freed]
      rfl

theorem scarce_fork : ∃ t, fork (scarce 66) {} = .ok (none, t) := by
  have legal : (scarce 66).kmem.Legal := freelist_legal (by decide)
  cases taken : (scarce 66).kmem.kalloc with
  | none => cases taken
  | some q =>
    obtain ⟨kstack, k⟩ := q
    obtain ⟨legal', same, page⟩ := legal.kalloc taken
    have length : k.freelist.length = KVMPAGES := by
      cases taken
      rfl
    obtain ⟨k', copied, kend⟩ := copyuvm_out legal' length
    obtain ⟨f, freed⟩ := kfree_returns (k := k') (x := kstack) (by rw [kend, same]; exact page)
    refine ⟨{ scarce 66 with kmem := f }, ?_⟩
    unfold fork
    rw [taken]
    dsimp only
    rw [show (scarce 66).proc.pgdir = onePageDir from rfl,
      show (scarce 66).proc.sz = PGSIZE from rfl, copied, Lib.ok_bind]
    dsimp only
    rw [freed]
    rfl

theorem program_plan : program.plan 80 = (false, some (0, ⟨kernelTab, 80 - KVMPAGES⟩)) := by
  unfold Inode.plan
  rw [show program.phnum = 0 by decide]
  rfl

end Scarce

/-- setupkvm finds no page, a growth finds the last page table but not the last page, fork
finds the pages for a directory, and exec has to give up its arguments. -/
theorem failed_calls_keep_pages_scarce :
    (∃ k, setupkvm (scarce 0).kmem = .ok (none, k) ∧
      ∀ x ∈ (scarce 0).kmem.freelist, x ∈ k.freelist) ∧
    (∃ w, allocuvm (scarce 2).uvm PGSIZE (4 * PGSIZE) = .ok (0, w) ∧ Accounted (scarce 2).kmem w) ∧
    (∃ k, copyuvm onePageDir (scarce 65).kmem PGSIZE = .ok (none, k) ∧
      ∀ x ∈ (scarce 65).kmem.freelist, x ∈ k.freelist) ∧
    (∃ t, growproc (scarce 2) (3 * PGSIZE) = .ok (-1, t) ∧ Accounted (scarce 2).kmem t.uvm) ∧
    (∃ t, fork (scarce 66) {} = .ok (none, t) ∧ Accounted (scarce 66).kmem t.uvm) ∧
    ∃ t, exec (scarce 80) programPath [List.replicate 4200 0] = .ok (-1, t) ∧
      Accounted (scarce 80).kmem t.uvm := by
  have calls := fun s t u w k k' parent => failed_calls_keep_pages s t u w k k' parent PGSIZE
    (4 * PGSIZE) PGSIZE (3 * PGSIZE) {} programPath [List.replicate 4200 0]
  have fails : (allocuvm (scarce 2).uvm PGSIZE (4 * PGSIZE)).toOption.map (·.1) = some 0 ∧
    (growproc (scarce 2) (3 * PGSIZE)).toOption.map (·.1) = some (-1) := by decide +kernel
  obtain ⟨⟨_, w⟩, grown, rfl⟩ := Lib.ok_of_eval fails.1
  obtain ⟨⟨_, t⟩, proc, rfl⟩ := Lib.ok_of_eval fails.2
  obtain ⟨k, copied, -⟩ := copyuvm_out (freelist_legal (n := 65) (by decide)) List.length_range'
  obtain ⟨f, forked⟩ := scarce_fork
  obtain ⟨x, execed, -⟩ := exec_long (s := scarce 80) rfl rfl
  have data : (scarce 66).kmem.kdata.1 % PGSIZE = 0 := (freelist_legal (n := 66) (by decide)).data
  refine ⟨⟨_, rfl, ?_⟩, ⟨w, grown, ?_⟩, ⟨k, copied, ?_⟩, ⟨t, proc, ?_⟩, ⟨f, forked, ?_⟩,
    x, execed, ?_⟩
  · exact ((calls x x w w (scarce 0).kmem _ onePageDir).1 data List.nodup_range' rfl).mpr rfl
  · exact ((calls x x (scarce 2).uvm w k k onePageDir).2.1 (scarce_sole 2) grown).mpr
      (by decide +kernel)
  · exact ((calls x x w w (scarce 65).kmem k onePageDir).2.2.1 data List.nodup_range'
      (by intro large; exact absurd large (by decide)) copied).mpr (by decide +kernel)
  · exact ((calls (scarce 2) t w w k k onePageDir).2.2.2.1 (scarce_sole 2) (by decide) proc).mpr
      (by decide +kernel)
  · exact ((calls (scarce 66) f w w k k onePageDir).2.2.2.2.1 (scarce_sole 66) data
      (by intro large; exact absurd large (by decide)) forked).mpr (by decide +kernel)
  · refine ((calls (scarce 80) x w w k k onePageDir).2.2.2.2.2 (scarce_sole 80) data
      (program_inside rfl) execed).mpr ?_
    rintro ⟨i, found, -, -, loses⟩
    cases found
    rw [show (scarce 80).fs.inode 0 = program from rfl,
      show (scarce 80).kmem.freelist.length = 80 by
      exact List.length_range', program_plan] at loses
    rcases loses with few | lost | ⟨sz, A, plan, starved⟩
    · exact absurd few (by decide)
    · cases lost
    · cases plan
      exact absurd starved (by decide +kernel)

/-- With three free pages fork fails, and two of them are gone. -/
theorem failed_fork_loses_pages : ∃ t, fork image {} = .ok (none, t) ∧
    ¬Accounted image.kmem t.uvm := by
  obtain ⟨d, k, setup, made⟩ := setupkvm_made (k := { freelist := [0x901, 0x902] }) (by decide)
  cases made with
  | some length _ _ _ _ _ _ _ => exact absurd length (by change 2 ≠ _ + 65; omega)
  | none _ empty kend _ _ =>
    obtain ⟨f, freed⟩ := kfree_returns (k := k) (x := 0x900) (by rw [kend]; decide)
    have list : f.freelist = [0x900] := by rw [(kfree_ok freed).1, empty]
    refine ⟨{ image with kmem := f }, ?_, fun kept => ?_⟩
    · unfold fork copyuvm
      rw [show image.kmem.kalloc = some (0x900, { freelist := [0x901, 0x902] }) from rfl]
      dsimp only
      rw [setup]
      dsimp only [Lib.ok_bind]
      rw [freed]
      rfl
    · have pos := accounted_iff.mp (kept 0x901 (by decide))
      rcases Uvm.mem_of_count pos with free | page | ⟨i, index, tab⟩ | ⟨v, user, e, there, pa⟩
      · change 0x901 ∈ f.freelist at free
        rw [list] at free
        exact absurd free (by decide)
      · exact absurd (show 0x400 = 0x901 from page) (by decide)
      · change imagePgdir.tab i = some 0x901 at tab
        unfold imagePgdir at tab
        dsimp only at tab
        split at tab
        · have := Option.some.inj tab
          simp only [NPDENTRIES] at index
          omega
        · cases tab
      · have := imagePgdir_pages user there
        omega

end MmapXv6
