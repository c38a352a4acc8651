import MmapXv6.Vm.Session
import MmapXv6.Vm.Writeback

/-! No store into a mapping is lost. While the mapping lives the stored byte is in a
page of memory that is present and dirty; once it is gone the byte is in the file. A
fault adds a page and touches none, a store changes one byte of one page, and munmap
moves the pages of its mapping to the file. -/
namespace MmapXv6

open Lib (bind_ok Reaches)
open Function

variable {a : Nat} {f : Fin NFILE} {i k : Fin MAXMAPPEDFILES} {ip : Fin NINODE}
  {s t : Vm} {w : Written}

structure StoresInv (s : Vm) (w : Written) : Prop where
  apart : s.uvm.Apart
  place : ∀ k, Live s.proc k → (s.proc.ommap k).va ≠ 0 ∧ (s.proc.ommap k).va % PGSIZE = 0 ∧
    (s.proc.ommap k).va + (s.proc.ommap k).sz ≤ s.proc.sz ∧
    (s.proc.ommap k).va + (s.proc.ommap k).sz ≤ KERNBASE ∧
    (s.proc.ommap k).sz ≤ MAXFILE * BSIZE / PGSIZE * PGSIZE
  order : Ordered s.proc
  backed : ∀ k f, (s.proc.ommap k).pfile = some f →
    ∃ ip, Backed s.fs f ip ∧ (s.proc.ommap k).sz ≤ (s.fs.inode ip).size
  distinct : ∀ j k ip, s.inodeOf j = some ip → s.inodeOf k = some ip → j = k
  kept : ∀ k ip i b, s.inodeOf k = some ip → w ip i = some b → i < (s.proc.ommap k).sz ∧
    ∃ e, s.entry (((s.proc.ommap k).va + i) / PGSIZE) = some e ∧ e.dirty = true ∧
      s.kmem.mem e.pa (((s.proc.ommap k).va + i) % PGSIZE) = b
  saved : ∀ ip i b, w ip i = some b → (∀ k, s.inodeOf k ≠ some ip) →
    i < (s.fs.inode ip).size ∧ (s.fs.inode ip).data i = b

theorem live_of_inodeOf
    (h : s.inodeOf k = some ip) : Live s.proc k := by
  obtain ⟨f, mapped, -⟩ := Option.bind_eq_some_iff.mp h
  simp [Live, mapped]

theorem inodeOf_same (ommap : t.proc.ommap k = s.proc.ommap k)
    (file : SameOpen s.fs t.fs) : t.inodeOf k = s.inodeOf k := by
  unfold Vm.inodeOf
  rw [ommap]
  congr 1
  funext f
  exact file.ip f

theorem StoresInv.byte_page (h : StoresInv s w)
    (live : Live s.proc k) {i : Nat} (inside : i < (s.proc.ommap k).sz) :
    ((s.proc.ommap k).va + i) / PGSIZE < UPAGES := by
  obtain ⟨-, -, -, low, -⟩ := h.place k live
  exact user_page (by omega)

/-- A step that at most adds pages: every page stays with its bytes and its flags. -/
structure Extends (s t : Vm) : Prop where
  sz : t.proc.sz = s.proc.sz
  ommap : t.proc.ommap = s.proc.ommap
  files : SameFiles s.fs t.fs
  apart : s.uvm.Apart → t.uvm.Apart
  page : s.uvm.Apart → ∀ v e, v < UPAGES → s.entry v = some e →
    t.entry v = some e ∧ t.kmem.mem e.pa = s.kmem.mem e.pa

theorem Extends.refl (s : Vm) : Extends s s :=
  ⟨rfl, rfl, .refl _, id, fun _ _ _ _ there => ⟨there, rfl⟩⟩

theorem Extends.inodeOf (h : Extends s t) : t.inodeOf = s.inodeOf := by
  funext k
  exact inodeOf_same (congrFun h.ommap k) h.files.file

theorem paged_extends {u : Uvm} {v : Nat} (user : v < UPAGES) (paged : Paged s.uvm u v) :
    Extends s (s.setUvm u) := by
  refine ⟨rfl, rfl, .refl _, paged.apart, fun apart w e hw there => ?_⟩
  have ne : w ≠ v := by
    rintro rfl
    rw [show s.entry w = none from paged.absent user] at there
    cases there
  constructor
  · change u.pgdir.entry w = some e
    rcases paged.entry with same | ⟨pa, added⟩
    · rw [same]
      exact there
    · rw [added, update_of_ne ne]
      exact there
  · exact paged.takes.mem e.pa (apart.used (PgDir.owner_some hw there))

theorem loaded_extends {u : Uvm} {v : Nat} (user : v < UPAGES)
    (paged : Paged s.uvm u v) (loaded : Loaded (s.setUvm u) v t) : Extends s t := by
  have added := paged_extends user paged
  cases loaded with
  | nothing same => exact ⟨rfl, rfl, same, added.apart, added.page⟩
  | @page fs e bytes same there =>
    refine ⟨rfl, rfl, same, fun apart => ?_, fun apart w f hw before => ?_⟩
    · exact Vm.fill_apart (s := { s.setUvm u with fs := fs }) there bytes (added.apart apart)
    · have ne : w ≠ v := by
        rintro rfl
        rw [show s.entry w = none from paged.absent user] at before
        cases before
      obtain ⟨entry, mem⟩ := added.page apart w f hw before
      rw [Vm.fill_entry (s := { s.setUvm u with fs := fs }) there, update_of_ne ne,
        Vm.fill_mem, update_of_ne]
      · exact ⟨entry, mem⟩
      · exact (added.apart apart).pa_ne hw user entry there ne

theorem trapped_extends {user : Bool} (low : a < KERNBASE)
    (trapped : Trapped s a user t) : Extends s t := by
  have page := user_page low
  cases trapped with
  | killed _ => exact ⟨rfl, rfl, .refl _, id, fun _ _ _ _ there => ⟨there, rfl⟩⟩
  | stack _ paged => exact paged_extends page paged
  | mapped _ paged loaded => exact loaded_extends page paged loaded

theorem StoresInv.extend (h : StoresInv s w) (e : Extends s t) :
    StoresInv t w := by
  have inodes := e.inodeOf
  have live : ∀ k, Live t.proc k → Live s.proc k := fun k hk => by
    unfold Live at hk ⊢
    rwa [e.ommap] at hk
  constructor
  · exact e.apart h.apart
  · intro k hk
    rw [e.ommap, e.sz]
    exact h.place k (live k hk)
  · exact h.order.fewer fun k hk => ⟨live k hk, by rw [e.ommap]⟩
  · intro k f hf
    rw [e.ommap] at hf
    obtain ⟨ip, backed, size⟩ := h.backed k f hf
    refine ⟨ip, backed.same e.files.file (by rw [e.files.inode]), ?_⟩
    rw [e.ommap, e.files.inode]
    exact size
  · rw [inodes]
    exact h.distinct
  · intro k ip i b hk hw
    rw [inodes] at hk
    obtain ⟨inside, p, there, dirty, byte⟩ := h.kept k ip i b hk hw
    have user := h.byte_page (live_of_inodeOf hk) inside
    obtain ⟨stays, mem⟩ := e.page h.apart _ p user there
    rw [e.ommap]
    exact ⟨inside, p, stays, dirty, by rw [mem]; exact byte⟩
  · intro ip i b hw gone
    rw [inodes] at gone
    rw [e.files.inode]
    exact h.saved ip i b hw gone

theorem StoresInv.fill (h : StoresInv s w) (b : UInt8) {e : Pte}
    (low : a < KERNBASE) (there : s.entry (a / PGSIZE) = some e) :
    StoresInv (s.fill (a / PGSIZE) e (update (s.kmem.mem e.pa) (a % PGSIZE) b))
      (record s w a b) := by
  have page := user_page low
  refine ⟨Vm.fill_apart there _ h.apart, h.place, h.order, h.backed, h.distinct, ?_, ?_⟩
  · intro k ip i b' hk hw
    rw [Vm.fill_entry there, Vm.fill_mem]
    change _ ∧ ∃ e', update s.entry _ _ (((s.proc.ommap k).va + i) / PGSIZE) = some e' ∧
      _ ∧ update s.kmem.mem _ _ e'.pa (((s.proc.ommap k).va + i) % PGSIZE) = b'
    unfold record at hw
    split at hw
    · rename_i recorded
      obtain ⟨j, hj, inside, rfl⟩ := recorded
      obtain rfl := h.distinct j k ip hj hk
      obtain rfl := Option.some.inj hw
      refine ⟨inside, { e with dirty := true }, update_self _ _ _, rfl, ?_⟩
      rw [update_self, update_self]
    · rename_i other
      obtain ⟨inside, p, before, dirty, byte⟩ := h.kept k ip i b' hk hw
      refine ⟨inside, ?_⟩
      by_cases same : ((s.proc.ommap k).va + i) / PGSIZE = a / PGSIZE
      · -- another byte of the page stored to: the page is marked dirty and keeps the byte
        rw [same, there] at before
        obtain rfl := Option.some.inj before
        refine ⟨{ e with dirty := true }, by rw [same, update_self], rfl, ?_⟩
        have apart : ((s.proc.ommap k).va + i) % PGSIZE ≠ a % PGSIZE := by
          intro offset
          apply other
          refine ⟨k, hk, inside, ?_⟩
          rw [← Nat.div_add_mod ((s.proc.ommap k).va + i) PGSIZE, same, offset, Nat.div_add_mod]
        rw [update_self, update_of_ne apart]
        exact byte
      · refine ⟨p, by rw [update_of_ne same]; exact before, dirty, ?_⟩
        have user := h.byte_page (live_of_inodeOf hk) inside
        rw [update_of_ne (h.apart.pa_ne user page before there same)]
        exact byte
  · intro ip i b' hw gone
    unfold record at hw
    split at hw
    · rename_i recorded
      obtain ⟨j, hj, -⟩ := recorded
      exact absurd hj (gone j)
    · exact h.saved ip i b' hw gone

def SameMaps (s t : Vm) : Prop := t.proc.ommap = s.proc.ommap ∧ t.inodeOf = s.inodeOf

theorem SameMaps.record (h : SameMaps s t) : record t = record s := by
  funext w a b ip i
  apply if_congr _ rfl rfl
  unfold Vm.offsetIn
  rw [h.1, h.2]

theorem StoresInv.store (h : StoresInv s w) {b : UInt8}
    {user ok : Bool} (low : a < KERNBASE) (done : s.store a b user = .ok (ok, t)) :
    StoresInv t (if ok then record t w a b else w) ∧ SameMaps s t ∧ (user = false → ok = true) := by
  have word : a < 2 ^ 32 := by
    simp only [KERNBASE] at low
    omega
  cases store_stored word done with
  | killed mode fault =>
    have e := trapped_extends low fault
    exact ⟨h.extend e, ⟨e.ommap, e.inodeOf⟩, fun kernel => by rw [mode] at kernel; cases kernel⟩
  | @done m p from_ there =>
    have e : Extends s m := by
      rcases from_ with rfl | fault
      · exact .refl _
      · exact trapped_extends low fault
    exact ⟨(h.extend e).fill b low there, ⟨e.ommap, e.inodeOf⟩, fun _ => rfl⟩

theorem StoresInv.stores {ps : List (Nat × UInt8)} (h : StoresInv s w)
    (low : ∀ p ∈ ps, p.1 < KERNBASE)
    (done : ps.foldlM Vm.put s = .ok t) :
    StoresInv t (ps.foldl (fun w p => record t w p.1 p.2) w) ∧ SameMaps s t := by
  induction ps generalizing s w with
  | nil =>
    cases done
    exact ⟨h, rfl, rfl⟩
  | cons p ps ih =>
    rw [List.foldlM_cons] at done
    obtain ⟨m, first, rest⟩ := bind_ok.mp done
    obtain ⟨⟨ok, m'⟩, stored, eq⟩ := bind_ok.mp first
    cases eq
    obtain ⟨inv, maps, made⟩ := h.store (low p List.mem_cons_self) stored
    rw [made rfl, if_pos rfl] at inv
    obtain ⟨final, later⟩ := ih inv (fun q hq => low q (List.mem_cons_of_mem p hq)) rest
    refine ⟨?_, later.1.trans maps.1, later.2.trans maps.2⟩
    rw [← later.record] at final
    exact final

theorem addMmap_inodeOf {size : Nat}
    (ne : k ≠ i) : (s.addMmap i f size).inodeOf k = s.inodeOf k :=
  inodeOf_same (addMmap_ne ne) fun _ => rfl

theorem addMmap_distinct
    {size : Nat}
    (distinct : ∀ j k jp, s.inodeOf j = some jp → s.inodeOf k = some jp → j = k)
    (self : (s.addMmap i f size).inodeOf i = some ip) (new : ∀ k, s.inodeOf k ≠ some ip)
    (j k : Fin MAXMAPPEDFILES) (jp : Fin NINODE) (hj : (s.addMmap i f size).inodeOf j = some jp)
    (hk : (s.addMmap i f size).inodeOf k = some jp) : j = k := by
  have only : ∀ k, (s.addMmap i f size).inodeOf k = some ip → k = i := by
    intro k hk
    by_contra e
    exact new k ((addMmap_inodeOf e).symm.trans hk)
  by_cases e : j = i
  · subst e
    obtain rfl := Option.some.inj (self.symm.trans hj)
    exact (only k hk).symm
  · by_cases e' : k = i
    · subst e'
      obtain rfl := Option.some.inj (self.symm.trans hk)
      exact only j hj
    · rw [addMmap_inodeOf e] at hj
      rw [addMmap_inodeOf e'] at hk
      exact distinct j k jp hj hk

theorem StoresInv.addMmap (h : StoresInv s w) (free : (s.proc.ommap i).pfile = none)
    (backed : Backed s.fs f ip) (new : ∀ k, s.inodeOf k ≠ some ip) (pos : s.proc.sz ≠ 0)
    (aligned : s.proc.sz % PGSIZE = 0) (low : s.proc.sz + (s.fs.inode ip).size ≤ KERNBASE)
    (small : (s.fs.inode ip).size ≤ MAXFILE * BSIZE / PGSIZE * PGSIZE) :
    StoresInv (s.addMmap i f (s.fs.inode ip).size) (forget w (some ip)) := by
  have self : (s.addMmap i f (s.fs.inode ip).size).inodeOf i = some ip := by
    unfold Vm.inodeOf
    rw [addMmap_self]
    exact backed.inode
  have unmapped : s.inodeOf i = none := by simp [Vm.inodeOf, free]
  have sz : (s.addMmap i f (s.fs.inode ip).size).proc.sz = _ := addMmap_sz (by
    simp only [KERNBASE, PGSIZE] at low ⊢
    omega)
  refine ⟨h.apart, ?_, addMmap_ordered h.order fun k live => (h.place k live).2.2.1, ?_, ?_, ?_, ?_⟩
  · intro k live
    rw [sz]
    by_cases e : k = i
    · subst e
      rw [addMmap_self]
      exact ⟨pos, aligned, by dsimp only; omega, low, small⟩
    · rw [addMmap_ne e]
      obtain ⟨pos, aligned, below, rest⟩ := h.place k (addMmap_live live e)
      exact ⟨pos, aligned, by omega, rest⟩
  · intro k g hg
    by_cases e : k = i
    · subst e
      rw [addMmap_self] at hg ⊢
      obtain rfl := Option.some.inj hg
      exact ⟨ip, backed, Nat.le_refl _⟩
    · rw [addMmap_ne e] at hg ⊢
      exact h.backed k g hg
  · exact addMmap_distinct h.distinct self new
  · intro k jp j b hk hw
    unfold forget at hw
    split at hw
    · cases hw
    · rename_i other
      have e : k ≠ i := by
        rintro rfl
        exact other (self.symm.trans hk)
      rw [addMmap_inodeOf e] at hk
      rw [addMmap_ne e]
      exact h.kept k jp j b hk hw
  · intro jp j b hw gone
    unfold forget at hw
    split at hw
    · cases hw
    · refine h.saved jp j b hw fun k => ?_
      by_cases e : k = i
      · rw [e, unmapped]
        exact (Option.some_ne_none jp).symm
      · rw [← addMmap_inodeOf e]
        exact gone k

end MmapXv6
