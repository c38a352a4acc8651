import MmapXv6.Vm.Space
import MmapXv6.Vm.Range

/-! What a page fault, an access and a mapped file's load change: at most one new page
for the faulting address, at most the offset of one open file, and nothing else of the
process but its page directory. -/
namespace MmapXv6

open Lib (bind_ok)
open Function

variable {a addr n : Nat} {e : Pte} {f : Fin NFILE} {fs fs' : Fs} {i k : Fin MAXMAPPEDFILES}
  {p : Proc} {r : Int} {s t : Vm} {user : Bool}

def SameOpen (fs fs' : Fs) : Prop :=
  ∀ f, { fs'.file f with off := 0 } = { fs.file f with off := 0 }

theorem SameOpen.trans {fs'' : Fs} (h : SameOpen fs fs') (h' : SameOpen fs' fs'') :
    SameOpen fs fs'' := fun f => (h' f).trans (h f)

theorem SameOpen.ip (h : SameOpen fs fs') (f : Fin NFILE) :
    (fs'.file f).ip = (fs.file f).ip := by
  simpa using congrArg File.ip (h f)

theorem SameOpen.type (h : SameOpen fs fs') (f : Fin NFILE) :
    (fs'.file f).type = (fs.file f).type := by
  simpa using congrArg File.type (h f)

theorem SameOpen.readable (h : SameOpen fs fs') (f : Fin NFILE) :
    (fs'.file f).readable = (fs.file f).readable := by
  simpa using congrArg File.readable (h f)

theorem SameOpen.writable (h : SameOpen fs fs') (f : Fin NFILE) :
    (fs'.file f).writable = (fs.file f).writable := by
  simpa using congrArg File.writable (h f)

theorem SameOpen.setOff (fs : Fs) (f : Fin NFILE) (off : Nat) : SameOpen fs (fs.setOff f off) := by
  intro g
  by_cases h : g = f
  · subst h
    simp [Fs.setOff]
  · simp [Fs.setOff, h]

structure SameFiles (fs fs' : Fs) : Prop where
  inode : fs'.inode = fs.inode
  file : SameOpen fs fs'

theorem SameFiles.refl (fs : Fs) : SameFiles fs fs := ⟨rfl, fun _ => rfl⟩

theorem SameFiles.trans {fs'' : Fs} (h : SameFiles fs fs') (h' : SameFiles fs' fs'') :
    SameFiles fs fs'' := ⟨h'.inode.trans h.inode, h.file.trans h'.file⟩

theorem SameFiles.setOff (fs : Fs) (f : Fin NFILE) (off : Nat) :
    SameFiles fs (fs.setOff f off) := ⟨rfl, .setOff fs f off⟩

theorem fileseek_same (done : fileseek fs f n = .ok fs') :
    SameFiles fs fs' := by
  unfold fileseek at done
  split at done
  · cases done
  · split at done <;> cases done <;> exact .setOff _ _ _

theorem fileread_same {b : Lib.Bytes}
    (done : fileread fs f n = .ok (r, b, fs')) : SameFiles fs fs' := by
  unfold fileread at done
  dsimp only at done
  split at done
  · cases done
    exact .refl _
  · split at done
    · cases done
    · cases done
    · cases done
    · obtain ⟨⟨q, c⟩, -, eq⟩ := bind_ok.mp done
      split at eq
      · cases eq
        exact .setOff _ _ _
      · cases eq
        exact .refl _

namespace Vm

theorem fill_entry {v : Nat} (there : s.entry v = some e) (page : Lib.Bytes) :
    (s.fill v e page).entry = update s.entry v (some { e with dirty := true }) :=
  s.proc.pgdir.entry_set _ (PgDir.table_of_entry there)

theorem fill_mem (s : Vm) (v : Nat) (e : Pte) (page : Lib.Bytes) :
    (s.fill v e page).kmem.mem = update s.kmem.mem e.pa page := rfl

theorem fill_apart {v : Nat} (there : s.entry v = some e) (page : Lib.Bytes)
    (apart : s.uvm.Apart) : (s.fill v e page).uvm.Apart := by
  refine Lib.Exclusive.forget apart fun w f owned => ?_
  unfold PgDir.owner at owned ⊢
  split at owned
  · rename_i user
    rw [if_pos user]
    change ((s.fill v e page).entry w).map Pte.pa = some f at owned
    rw [fill_entry there] at owned
    by_cases h : w = v
    · subst h
      rw [update_self] at owned
      change (s.entry w).map Pte.pa = some f
      rw [there]
      exact owned
    · rw [update_of_ne h] at owned
      exact owned
  · cases owned

end Vm

inductive Loaded (s : Vm) (v : Nat) : Vm → Prop where
  | nothing {fs : Fs} : SameFiles s.fs fs → Loaded s v { s with fs := fs }
  | page {fs : Fs} {e : Pte} {page : Lib.Bytes} : SameFiles s.fs fs → s.entry v = some e →
      Loaded s v (Vm.fill { s with fs := fs } v e page)

theorem loadMapped_loaded {m : Mmap} {base : Nat}
    (done : loadMapped s m base = .ok t) : Loaded s (base / PGSIZE) t := by
  unfold loadMapped at done
  split at done
  · cases done
  · obtain ⟨fs, sought, done⟩ := bind_ok.mp done
    obtain ⟨⟨r, bytes, fs'⟩, read, done⟩ := bind_ok.mp done
    have same := (fileseek_same sought).trans (fileread_same read)
    dsimp only at done
    split at done
    · cases done
      exact .nothing same
    · split at done
      · cases done
      · rename_i e there
        cases done
        exact .page same there

def InWindow (p : Proc) (cr2 : Nat) : Prop :=
  p.sstack ≤ cr2 ∧ cr2 < (p.sstack + MAXSTACKPAGES * PGSIZE) % 2 ^ 32

abbrev Live (p : Proc) (i : Fin MAXMAPPEDFILES) : Prop := (p.ommap i).pfile.isSome

def InMapping (p : Proc) (i : Fin MAXMAPPEDFILES) (a : Nat) : Prop :=
  Live p i ∧ (p.ommap i).va ≤ a ∧ a < ((p.ommap i).va + (p.ommap i).sz) % 2 ^ 32

theorem mmapin_some {cr2 : Nat}
    (found : mmapin p.ommap cr2 = some i) : InMapping p i cr2 := by
  have := List.find?_some found
  simpa [InMapping, and_assoc] using this

inductive Trapped (s : Vm) (cr2 : Nat) (user : Bool) : Vm → Prop where
  | killed : user = true → Trapped s cr2 user { s with proc := { s.proc with killed := true } }
  | stack {u : Uvm} : InWindow s.proc cr2 → Paged s.uvm u (cr2 / PGSIZE) →
      Trapped s cr2 user (s.setUvm u)
  | mapped {u : Uvm} {t : Vm} {i : Fin MAXMAPPEDFILES} : InMapping s.proc i cr2 →
      Paged s.uvm u (cr2 / PGSIZE) → Loaded (s.setUvm u) (cr2 / PGSIZE) t → Trapped s cr2 user t

inductive Faulted (s : Vm) (cr2 : Nat) (user : Bool) : Vm → Prop where
  | killed : user = true → Faulted s cr2 user { s with proc := { s.proc with killed := true } }
  | stack {u : Uvm} : InWindow s.proc cr2 → Paged s.uvm u (cr2 / PGSIZE) →
      Faulted s cr2 user (s.setUvm u)
  | mapped {u : Uvm} {t : Vm} {i : Fin MAXMAPPEDFILES} : InMapping s.proc i cr2 →
      Paged s.uvm u (cr2 / PGSIZE) →
      loadMapped (s.setUvm u) (s.proc.ommap i) (PGROUNDDOWN cr2) = .ok t → Faulted s cr2 user t

theorem trap_faulted (word : a < 2 ^ 32) (done : trap s a user = .ok t) :
    Faulted s a user t := by
  unfold trap at done
  split at done
  · rename_i window
    obtain ⟨⟨r, u⟩, grown, done⟩ := bind_ok.mp done
    dsimp only at done
    split at done
    · cases done
    · rename_i served
      cases done
      exact .stack window (allocuvm_fault word grown served)
  · split at done
    · rename_i i found
      obtain ⟨⟨r, u⟩, grown, done⟩ := bind_ok.mp done
      dsimp only at done
      split at done
      · cases done
      · rename_i served
        exact .mapped (mmapin_some found) (allocuvm_fault word grown served) done
    · split at done
      · cases done
        exact .killed ‹_›
      · cases done

theorem Faulted.trapped (h : Faulted s a user t) : Trapped s a user t := by
  have page : PGROUNDDOWN a / PGSIZE = a / PGSIZE := Nat.mul_div_cancel _ (by decide)
  cases h with
  | killed mode => exact .killed mode
  | stack window paged => exact .stack window paged
  | mapped inside paged loaded => exact .mapped inside paged (page ▸ loadMapped_loaded loaded)

theorem Vm.admits_some {write : Bool}
    (h : s.admits a write user = some e) : s.entry (a / PGSIZE) = some e :=
  (Option.filter_eq_some_iff.mp h).1

inductive Accessed (s : Vm) (a : Nat) (user : Bool) : Option Pte → Vm → Prop where
  | killed {t : Vm} : user = true → Trapped s a user t → Accessed s a user none t
  | done {t : Vm} {e : Pte} : s = t ∨ Trapped s a user t → t.entry (a / PGSIZE) = some e →
      Accessed s a user (some e) t

theorem access_accessed {write : Bool} {r : Option Pte}
    (word : a < 2 ^ 32) (done : s.access a write user = .ok (r, t)) : Accessed s a user r t := by
  unfold Vm.access at done
  split at done
  · rename_i e admitted
    cases done
    exact .done (.inl rfl) (Vm.admits_some admitted)
  · obtain ⟨w, trapped, done⟩ := bind_ok.mp done
    have fault := (trap_faulted word trapped).trapped
    split at done
    · rename_i kill
      cases done
      exact .killed (Bool.and_eq_true_iff.mp kill).1 fault
    · split at done
      · rename_i e admitted
        cases done
        exact .done (.inr fault) (Vm.admits_some admitted)
      · cases done

theorem load_cases {b : Option UInt8} (word : a < 2 ^ 32)
    (done : s.load a = .ok (b, t)) : s = t ∨ Trapped s a true t := by
  obtain ⟨⟨r, w⟩, accessed, rest⟩ := bind_ok.mp done
  cases access_accessed word accessed with
  | killed _ fault =>
    cases rest
    exact .inr fault
  | done from_ _ =>
    cases rest
    exact from_

inductive Stored (s : Vm) (a : Nat) (b : UInt8) (user : Bool) : Bool → Vm → Prop where
  | killed {t : Vm} : user = true → Trapped s a user t → Stored s a b user false t
  | done {t : Vm} {e : Pte} : s = t ∨ Trapped s a user t → t.entry (a / PGSIZE) = some e →
      Stored s a b user true
        (t.fill (a / PGSIZE) e (update (t.kmem.mem e.pa) (a % PGSIZE) b))

theorem store_stored {b : UInt8} {ok : Bool} (word : a < 2 ^ 32)
    (done : s.store a b user = .ok (ok, t)) : Stored s a b user ok t := by
  obtain ⟨⟨r, w⟩, accessed, rest⟩ := bind_ok.mp done
  cases access_accessed word accessed with
  | killed mode fault =>
    cases rest
    exact .killed mode fault
  | done from_ there =>
    cases rest
    exact .done from_ there

section Table

def Ordered (p : Proc) : Prop := ∀ j k, j ≠ k → Live p j → Live p k →
  (p.ommap j).va + (p.ommap j).sz ≤ (p.ommap k).va ∨
    (p.ommap k).va + (p.ommap k).sz ≤ (p.ommap j).va

theorem Ordered.fewer {q : Proc} (h : Ordered p)
    (ommap : ∀ k, Live q k → Live p k ∧ q.ommap k = p.ommap k) : Ordered q := by
  intro j k ne hj hk
  rw [(ommap j hj).2, (ommap k hk).2]
  exact h j k ne (ommap j hj).1 (ommap k hk).1

variable {s t : Vm} {i : Fin MAXMAPPEDFILES} {f : Fin NFILE} {size : Nat}

theorem addMmap_self : (s.addMmap i f size).proc.ommap i = ⟨some f, s.proc.sz, size⟩ :=
  update_self _ _ _

theorem addMmap_ne (ne : k ≠ i) :
    (s.addMmap i f size).proc.ommap k = s.proc.ommap k := update_of_ne ne _ _

theorem addMmap_live (live : Live (s.addMmap i f size).proc k)
    (ne : k ≠ i) : Live s.proc k := by
  unfold Live at live ⊢
  rwa [addMmap_ne ne] at live

theorem addMmap_sz (fits : s.proc.sz + size + (PGSIZE - 1) < 2 ^ 32) :
    (s.addMmap i f size).proc.sz = (s.proc.sz + size + 4095) / 4096 * 4096 := by
  change PGROUNDUP ((s.proc.sz + size) % 2 ^ 32) = _
  unfold PGROUNDUP
  simp only [PGSIZE] at fits ⊢
  omega

theorem addMmap_ordered (h : Ordered s.proc)
    (below : ∀ k, Live s.proc k → (s.proc.ommap k).va + (s.proc.ommap k).sz ≤ s.proc.sz) :
    Ordered (s.addMmap i f size).proc := by
  intro j k ne hj hk
  by_cases ej : j = i
  · subst ej
    rw [addMmap_self, addMmap_ne ne.symm]
    exact .inr (below k (addMmap_live hk ne.symm))
  · by_cases ek : k = i
    · subst ek
      rw [addMmap_self, addMmap_ne ej]
      exact .inl (below j (addMmap_live hj ej))
    · rw [addMmap_ne ej, addMmap_ne ek]
      exact h j k ne (addMmap_live hj ej) (addMmap_live hk ek)

theorem dropMmap_live (live : Live (s.dropMmap i).proc k) :
    k ≠ i ∧ Live s.proc k ∧ (s.dropMmap i).proc.ommap k = s.proc.ommap k := by
  have ne : k ≠ i := by
    rintro rfl
    simp [Live, Vm.dropMmap] at live
  have same : (s.dropMmap i).proc.ommap k = s.proc.ommap k := update_of_ne ne _ _
  unfold Live at live ⊢
  rw [same] at live
  exact ⟨ne, live, same⟩

inductive Mapping (s : Vm) (fd : Int) (addr : Nat) : Int → Vm → Prop where
  | fail {r : Int} : r ≠ 0 → Mapping s fd addr r s
  | map {t : Vm} {i : Fin MAXMAPPEDFILES} {f : Fin NFILE} {ip : Fin NINODE} :
      openFile s.proc fd = some f → (s.fs.file f).ip = some ip → (s.proc.ommap i).pfile = none →
      (s.addMmap i f (s.fs.inode ip).size).storeWord addr s.proc.sz = .ok t →
      Mapping s fd addr 0 t

theorem mmap_mapping {fd : Int} (done : mmap s fd addr = .ok (r, t)) :
    Mapping s fd addr r t := by
  unfold mmap at done
  split at done
  · cases done
    exact .fail (by decide)
  · rename_i f opened
    split at done
    · cases done
      exact .fail (by decide)
    · rename_i i found
      split at done
      · cases done
      · rename_i ip inode
        obtain ⟨w, stored, eq⟩ := bind_ok.mp done
        cases eq
        exact .map opened inode (by simpa using List.find?_some found) stored

def Vm.resized (s : Vm) (r : Nat × Uvm) : Vm :=
  if r.1 = 0 then s.setUvm r.2
  else { s with proc := { s.proc with sz := r.1, pgdir := r.2.pgdir }, kmem := r.2.kmem }

inductive Resizing (s : Vm) (n : Int) : Vm → Prop where
  | same : Resizing s n s
  | grow {r : Nat × Uvm} : 0 < n → allocuvm s.uvm s.proc.sz (brk s.proc n) = .ok r →
      Resizing s n (s.resized r)
  | shrink {r : Nat × Uvm} : n < 0 → deallocuvm s.uvm s.proc.sz (brk s.proc n) = .ok r →
      Resizing s n (s.resized r)

theorem growproc_resizing {n : Int} (done : growproc s n = .ok (r, t)) : Resizing s n t := by
  have state : ∀ x : Nat × Uvm, (if x.1 = 0 then ((-1 : Int), s.setUvm x.2)
      else (0, { s with
        proc := { s.proc with sz := x.1, pgdir := x.2.pgdir }, kmem := x.2.kmem })).2 =
        s.resized x := by
    intro x
    unfold Vm.resized
    split <;> rfl
  unfold growproc at done
  split at done
  · obtain ⟨x, grown, eq⟩ := bind_ok.mp done
    obtain rfl : _ = t := congrArg Prod.snd (Except.ok.inj eq)
    rw [state]
    exact .grow ‹_› grown
  · split at done
    · obtain ⟨x, freed, eq⟩ := bind_ok.mp done
      obtain rfl : _ = t := congrArg Prod.snd (Except.ok.inj eq)
      rw [state]
      exact .shrink ‹_› freed
    · cases done
      exact .same

end Table

theorem writeback_keeps {offset : Nat}
    (done : writeback s f addr offset = .ok t) : t.proc = s.proc ∧ t.kmem = s.kmem := by
  unfold writeback at done
  split at done
  · cases done
    exact ⟨rfl, rfl⟩
  · split at done
    · obtain ⟨fs, -, done⟩ := bind_ok.mp done
      obtain ⟨⟨r, fs'⟩, -, done⟩ := bind_ok.mp done
      cases done
      exact ⟨rfl, rfl⟩
    · cases done
      exact ⟨rfl, rfl⟩

theorem writebackLoop_keeps {size offset : Nat}
    (done : writebackLoop f addr size n s offset = .ok t) : t.proc = s.proc ∧ t.kmem = s.kmem := by
  induction n generalizing s offset with
  | zero => cases done
  | succ n ih =>
    unfold writebackLoop at done
    split at done
    · obtain ⟨w, first, rest⟩ := bind_ok.mp done
      obtain ⟨proc, kmem⟩ := writeback_keeps first
      obtain ⟨proc', kmem'⟩ := ih rest
      exact ⟨proc'.trans proc, kmem'.trans kmem⟩
    · cases done
      exact ⟨rfl, rfl⟩

theorem mappingAt_some
    (found : mappingAt p.ommap addr = some i) :
    (p.ommap i).va ≠ 0 ∧ Live p i ∧ addr = (p.ommap i).va := by
  have := List.find?_some found
  simpa [and_assoc] using this

theorem mappingAt_first (live : Live p k)
    (pos : (p.ommap k).va ≠ 0) : ∃ i, mappingAt p.ommap (p.ommap k).va = some i ∧ i ≤ k := by
  have here : (decide ((p.ommap k).va ≠ 0) && (p.ommap k).pfile.isSome &&
      decide ((p.ommap k).va = (p.ommap k).va)) = true := by simp [pos, live]
  cases found : mappingAt p.ommap (p.ommap k).va with
  | none => exact absurd here (List.find?_eq_none.mp found k (List.mem_finRange k))
  | some i =>
    refine ⟨i, rfl, ?_⟩
    obtain ⟨-, before, after, split, none⟩ := List.find?_eq_some_iff_append.mp found
    have sorted := List.pairwise_lt_finRange MAXMAPPEDFILES
    have mem := List.mem_finRange k
    rw [split] at sorted mem
    rcases List.mem_append.mp mem with early | late
    · have := none k early
      rw [here] at this
      cases this
    · rcases List.mem_cons.mp late with rfl | later
      · exact Nat.le_refl _
      · exact Nat.le_of_lt ((List.pairwise_cons.mp (List.pairwise_append.mp sorted).2.1).1 k later)

theorem munmapAt_cases
    (done : munmapAt s i f = .ok t) :
    ∃ w r u, writebackLoop f (s.proc.ommap i).va
      (((s.proc.ommap i).va + (s.proc.ommap i).sz) % 2 ^ 32)
        (NPAGES + 1) s (s.proc.ommap i).va = .ok w ∧ w.proc = s.proc ∧ w.kmem = s.kmem ∧
      deallocuvm s.uvm (((s.proc.ommap i).va +
        ((s.proc.ommap i).va + (s.proc.ommap i).sz) % 2 ^ 32) % 2 ^ 32) (s.proc.ommap i).va
        = .ok (r, u) ∧ t = (w.setUvm u).dropMmap i := by
  obtain ⟨w, loop, rest⟩ := bind_ok.mp done
  obtain ⟨proc, kmem⟩ := writebackLoop_keeps loop
  obtain ⟨⟨q, u⟩, unmapped, eq⟩ := bind_ok.mp rest
  obtain ⟨⟨r, u'⟩, freed, eq'⟩ := bind_ok.mp unmapped
  cases eq'
  cases eq
  have same : w.uvm = s.uvm := by
    unfold Vm.uvm
    rw [proc, kmem]
  rw [same] at freed
  exact ⟨w, r, u, loop, proc, kmem, freed, rfl⟩

end MmapXv6
