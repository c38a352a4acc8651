import MmapXv6.Vm.Copyout
import MmapXv6.Vm.Leaks
import MmapXv6.Vm.Malformed

/-! The arguments that exec puts on the new stack. The page below the stack page is left
out of the address space and the kernel's half is not the user's, so a copy that starts
or ends anywhere but in the stack page fails, and a successful exec has kept to it. -/
namespace MmapXv6

open Lib (bind_ok ok_bind)

variable {d : PgDir} {i p v : Nat}

/-- A copy that succeeds has found a user page at every address that it does not reach by
wrapping around. -/
theorem copyoutLoop_user {u w : Uvm} {p : Lib.Bytes} {n va at_ len a : Nat} {r : Int}
    (done : copyoutLoop p n u va at_ len = .ok (r, w)) (whole : ¬ r < 0) (low : va ≤ a)
    (high : a < va + len) (word : a < 2 ^ 32) : (u.pgdir.userPa (a / PGSIZE)).isSome := by
  induction n generalizing u va at_ len with
  | zero => cases done
  | succ n ih =>
    unfold copyoutLoop at done
    rw [if_neg (by omega), PGROUNDDOWN, uva2ka_eq] at done
    split at done
    · rw [ok_bind] at done
      cases page : u.pgdir.userPa (va / PGSIZE) with
      | none =>
        rw [page] at done
        cases done
        exact absurd (by decide) whole
      | some pa =>
        rw [page] at done
        dsimp only at done
        by_cases here : a / PGSIZE = va / PGSIZE
        · rw [here, page]
          rfl
        · have more : PGSIZE - va % PGSIZE < len ∧ va / PGSIZE * PGSIZE + PGSIZE ≤ a := by
            simp only [PGSIZE] at here ⊢
            omega
          have next : (va / PGSIZE * PGSIZE + PGSIZE) % 2 ^ 32 = va / PGSIZE * PGSIZE + PGSIZE :=
            Nat.mod_eq_of_lt (by omega)
          rw [if_neg (show ¬ len < PGSIZE - va % PGSIZE by omega), next] at done
          have there := ih done more.2 (by simp only [PGSIZE] at more ⊢; omega)
          exact there
    · cases done

structure StackTop (d : PgDir) (g : Nat) : Prop where
  pos : 0 < g
  user : g < UPAGES
  below : d.userPa (g - 1) = none
  kernel : ∀ v, UPAGES ≤ v → d.userPa v = none

section Push
variable {d : PgDir} {g sp len : Nat}

theorem StackTop.room (h : StackTop d g) (pos : 0 < len) (aligned : sp % 4 = 0)
    (low : g * PGSIZE ≤ sp) (high : sp ≤ g * PGSIZE + PGSIZE)
    (good : ∀ a, (sp + 2 ^ 32 - len) % 2 ^ 32 / 4 * 4 ≤ a →
      a < (sp + 2 ^ 32 - len) % 2 ^ 32 / 4 * 4 + len →
      a < 2 ^ 32 → (d.userPa (a / PGSIZE)).isSome) :
    len ≤ sp ∧ (sp + 2 ^ 32 - len) % 2 ^ 32 / 4 * 4 = (sp - len) / 4 * 4 ∧
      g * PGSIZE ≤ (sp - len) / 4 * 4 := by
  have not_good : ∀ a v, a / PGSIZE = v → d.userPa v = none → ¬ (d.userPa (a / PGSIZE)).isSome := by
    intro a v page none there
    rw [page, none] at there
    cases there
  have user := h.user
  simp only [UPAGES, KERNBASE, PGSIZE] at user low high
  by_cases fits : len ≤ sp
  · have same : (sp + 2 ^ 32 - len) % 2 ^ 32 = sp - len := by omega
    rw [same] at good ⊢
    refine ⟨fits, rfl, ?_⟩
    by_contra under
    -- the page below the stack page has a byte of the range
    have first := h.pos
    refine not_good (min (g * PGSIZE - 1) ((sp - len) / 4 * 4 + len - 1)) (g - 1) ?_ h.below
      (good _ ?_ ?_ ?_)
    all_goals
      simp only [PGSIZE] at under ⊢
      omega
  · exfalso
    by_cases above : KERNBASE ≤ (sp + 2 ^ 32 - len) % 2 ^ 32 / 4 * 4
    · refine not_good _ _ rfl (h.kernel _ ?_) (good _ (Nat.le_refl _) (by omega) (by omega))
      simp only [UPAGES, KERNBASE, PGSIZE] at above ⊢
      omega
    · refine not_good KERNBASE _ rfl (h.kernel _ (by decide)) (good _ ?_ ?_ (by decide))
      · omega
      · simp only [KERNBASE] at above ⊢
        omega

end Push

def Uvm.HasBytes (u : Uvm) (a : Nat) (bs : List UInt8) : Prop :=
  ∀ j, j < bs.length → u.userByte (a + j) = bs[j]?

def Uvm.userWord (u : Uvm) (a : Nat) : Option Nat := do
  let b0 ← u.userByte a
  let b1 ← u.userByte (a + 1)
  let b2 ← u.userByte (a + 2)
  let b3 ← u.userByte (a + 3)
  some (Lib.word (fun j => [b0, b1, b2, b3].getD j 0) 0)

section Words
variable {u w : Uvm} {a : Nat}

theorem wordsBytes_get {ws : List Nat} (inside : i < ws.length) {j : Nat} (byte : j < 4) :
    (wordsBytes ws)[4 * i + j]? = some (UInt8.ofNat (ws[i] / 2 ^ (8 * j))) := by
  induction ws generalizing i with
  | nil => cases inside
  | cons x ws ih =>
    have four : ((wordBytes 0 x).map Prod.snd).length = 4 := by simp [wordBytes]
    change ((wordBytes 0 x).map Prod.snd ++ wordsBytes ws)[4 * i + j]? = _
    cases i with
    | zero =>
      rw [List.getElem?_append_left (by omega)]
      simp [wordBytes, byte]
    | succ i =>
      rw [List.getElem?_append_right (by omega), four,
        show 4 * (i + 1) + j - 4 = 4 * i + j by omega]
      exact ih (by simpa using inside)

theorem word_ofBytes (small : v < 2 ^ 32) : Lib.word (fun j => [UInt8.ofNat (v / 2 ^ (8 * 0)),
    UInt8.ofNat (v / 2 ^ (8 * 1)), UInt8.ofNat (v / 2 ^ (8 * 2)),
      UInt8.ofNat (v / 2 ^ (8 * 3))].getD j 0) 0 =
      v := by
  have low : ∀ n, (UInt8.ofNat n).toNat = n % 2 ^ 8 := fun n => UInt8.toNat_ofNat'
  simp [Lib.word, low]
  omega

theorem Uvm.HasBytes.userWord {ws : List Nat} (h : u.HasBytes a (wordsBytes ws))
    (inside : i < ws.length) (small : ws[i] < 2 ^ 32) : u.userWord (a + 4 * i) = some ws[i] := by
  have byte : ∀ j, j < 4 → u.userByte (a + 4 * i + j) =
      some (UInt8.ofNat (ws[i] / 2 ^ (8 * j))) := by
    intro j less
    rw [Nat.add_assoc, h (4 * i + j) (by rw [wordsBytes_length]; omega), wordsBytes_get inside less]
  unfold Uvm.userWord
  rw [← Nat.add_zero (a + 4 * i), byte 0 (by decide), Nat.add_zero, byte 1 (by decide),
    byte 2 (by decide),
    byte 3 (by decide)]
  exact congrArg some (word_ofBytes small)

theorem Uvm.HasBytes.mono {bs : List UInt8} (h : u.HasBytes a bs)
    (same : ∀ b, a ≤ b → b < a + bs.length → w.userByte b = u.userByte b) : w.HasBytes a bs := by
  intro j inside
  rw [same (a + j) (by omega) (by omega)]
  exact h j inside

end Words

section Stack
variable {u v w : Uvm} {g sp sp' lo : Nat}

structure KeepsOutside (u w : Uvm) (g lo hi : Nat) : Prop where
  pgdir : w.pgdir = u.pgdir
  freelist : w.kmem.freelist = u.kmem.freelist
  byte : ∀ a, a / PGSIZE = g → a < lo ∨ hi ≤ a → w.userByte a = u.userByte a

theorem KeepsOutside.refl (u : Uvm) (g lo hi : Nat) : KeepsOutside u u g lo hi :=
    ⟨rfl, rfl, fun _ _ _ => rfl⟩

theorem KeepsOutside.trans {mid hi : Nat} (h : KeepsOutside u v g mid hi)
    (h' : KeepsOutside v w g lo mid)
    (le : lo ≤ mid) (le' : mid ≤ hi) : KeepsOutside u w g lo hi where
  pgdir := h'.pgdir.trans h.pgdir
  freelist := h'.freelist.trans h.freelist
  byte := fun a page out => (h'.byte a page (by omega)).trans (h.byte a page (by omega))

theorem copyout_page {p : List UInt8} {r : Int} (low : g * PGSIZE ≤ sp)
    (high : sp + p.length ≤ g * PGSIZE + PGSIZE)
    (user : g < UPAGES) (done : copyout u sp p = .ok (r, w)) (whole : ¬ r < 0) :
    w.HasBytes sp p ∧ KeepsOutside u w g sp (sp + p.length) := by
  have word : sp + p.length ≤ 2 ^ 32 := by
    simp only [UPAGES, KERNBASE, PGSIZE] at user high
    omega
  have all : AllUser u.pgdir sp p.length := by
    intro a from_ to_
    exact copyoutLoop_user done whole from_ to_ (by omega)
  obtain ⟨w', done', copied⟩ := copyout_all all word
  rw [done'] at done
  cases done
  have alone : ∀ a b, sp ≤ a → a < sp + p.length → b / PGSIZE = g →
      SameByte u.pgdir a b → a = b := by
    rintro a b from_ to_ page ⟨-, -, -, index⟩
    simp only [PGSIZE] at low high page index
    omega
  refine ⟨fun j inside => ?_, copied.pgdir, copied.freelist, fun a page out => ?_⟩
  · obtain ⟨b, from_, to_, same, value⟩ := copied.value (Nat.le_add_right sp j) (by omega)
    obtain rfl := alone b (sp + j) from_ to_ (by simp only [PGSIZE] at low high ⊢; omega) same
    rw [value, Nat.zero_add, Nat.add_sub_cancel_left, List.getD_eq_getElem?_getD,
      List.getElem?_eq_getElem inside]
    rfl
  · by_contra differs
    obtain ⟨b, from_, to_, same⟩ := copied.changed differs
    obtain rfl := alone b a from_ to_ page same
    omega

inductive Stacked (u : Uvm) (lo : Nat) : Nat → List (List UInt8) → List Nat → Prop where
  | nil {hi : Nat} : lo ≤ hi → Stacked u lo hi [] []
  | cons {hi p : Nat} {arg : List UInt8} {rest : List (List UInt8)} {ptrs : List Nat} :
      p + (arg.length + 1) ≤ hi → u.HasBytes p (arg ++ [0]) → Stacked u lo p rest ptrs →
      Stacked u lo hi (arg :: rest) (p :: ptrs)

theorem pushArgs_stacked {argv : List (List UInt8)} {argc : Nat} {ustack ustack' : List Nat}
    (top : StackTop u.pgdir g) (low : g * PGSIZE ≤ sp) (high : sp ≤ g * PGSIZE + PGSIZE)
      (aligned : sp % 4 = 0)
    (done : pushArgs argv argc sp ustack u = .ok (true, sp', ustack', w)) :
    g * PGSIZE ≤ sp' ∧ sp' ≤ sp ∧ sp' % 4 = 0 ∧ KeepsOutside u w g sp' sp ∧
      ∃ ptrs, ustack' = ustack ++ ptrs ∧ Stacked w sp' sp argv ptrs := by
  induction argv generalizing argc sp ustack u with
  | nil =>
    cases done
    exact ⟨low, Nat.le_refl _, aligned, .refl _ g _ _, [], (List.append_nil _).symm,
      .nil (Nat.le_refl _)⟩
  | cons arg rest ih =>
    unfold pushArgs at done
    split at done
    · cases done
    obtain ⟨⟨r, v⟩, copied, done⟩ := bind_ok.mp done
    dsimp only at done
    split at done
    · cases done
    rename_i whole
    have len : (arg ++ [0]).length = arg.length + 1 := by simp
    obtain ⟨fits, at_, inside⟩ :=
      top.room (Nat.succ_pos arg.length) aligned low high fun a from_ to_ word =>
      copyoutLoop_user copied whole from_ (by rw [len]; exact to_) word
    rw [at_] at copied done
    obtain ⟨string, keeps⟩ := copyout_page inside (by rw [len]; omega) top.user copied whole
    obtain ⟨low', high', aligned', keeps', ptrs, stack, stacked⟩ :=
        ih (by rw [keeps.pgdir]; exact top) inside
      (by omega) (by omega) done
    have under : (sp - (arg.length + 1)) / 4 * 4 + (arg.length + 1) ≤ sp := by omega
    refine ⟨low', by omega, aligned', ?_, (sp - (arg.length + 1)) / 4 * 4 :: ptrs,
      by rw [stack]; simp, .cons under ?_ stacked⟩
    · refine KeepsOutside.trans ⟨keeps.pgdir, keeps.freelist, fun a page out => ?_⟩ keeps' high'
        (by omega)
      exact keeps.byte a page (by rw [len]; omega)
    · refine string.mono fun b from_ to_ => keeps'.byte b ?_ (.inr from_)
      rw [len] at to_
      simp only [PGSIZE] at inside high ⊢
      omega

section Stacked
variable {argv : List (List UInt8)} {ptrs : List Nat} {hi : Nat}

theorem Stacked.le (h : Stacked u lo hi argv ptrs) : lo ≤ hi := by
  induction h with
  | nil le => exact le
  | cons under _ _ ih => omega

theorem Stacked.length (h : Stacked u lo hi argv ptrs) : ptrs.length = argv.length := by
  induction h with
  | nil => rfl
  | cons _ _ _ ih => rw [List.length_cons, List.length_cons, ih]

theorem Stacked.mono (h : Stacked u lo hi argv ptrs)
    (same : ∀ a, lo ≤ a → a < hi → w.userByte a = u.userByte a) : Stacked w lo hi argv ptrs := by
  induction h with
  | nil le => exact .nil le
  | cons under bytes more ih =>
    have below := more.le
    refine .cons under (bytes.mono fun b from_ to_ => same b (by omega) ?_)
      (ih fun a from_ to_ => same a from_ ?_)
    · simp only [List.length_append, List.length_singleton] at to_
      omega
    · omega

theorem Stacked.get {arg : List UInt8} (h : Stacked u lo hi argv ptrs)
    (string : argv[i]? = some arg)
    (ptr : ptrs[i]? = some p) : lo ≤ p ∧ p + (arg.length + 1) ≤ hi ∧ u.HasBytes p (arg ++ [0]) := by
  induction h generalizing i with
  | nil => cases string
  | cons under bytes more ih =>
    cases i with
    | zero =>
      cases string
      cases ptr
      exact ⟨more.le, under, bytes⟩
    | succ i =>
      obtain ⟨from_, to_, has⟩ := ih string ptr
      exact ⟨from_, by omega, has⟩

theorem Stacked.apart {j q : Nat} {arg : List UInt8} (h : Stacked u lo hi argv ptrs)
    (before : i < j)
    (ptr : ptrs[i]? = some p) (string : argv[j]? = some arg) (ptr' : ptrs[j]? = some q) :
    q + (arg.length + 1) ≤ p := by
  induction h generalizing i j with
  | nil => cases string
  | cons under bytes more ih =>
    obtain ⟨j, rfl⟩ : ∃ k, j = k + 1 := ⟨j - 1, by omega⟩
    cases i with
    | zero =>
      cases ptr
      exact (more.get string ptr').2.1
    | succ i => exact ih (by omega) ptr string ptr'

end Stacked

/-- The three words before the pointers, the pointers and the null. -/
def stackWords (esp : Nat) (ptrs : List Nat) : List Nat :=
  [0xffffffff, ptrs.length, esp + 12] ++ ptrs ++ [0]

theorem execArgs_stacked {s t : Vm} {name : List UInt8} {entry : Nat} {argv : List (List UInt8)}
    (top : StackTop u.pgdir g)
    (done : execArgs s name entry u (g * PGSIZE + PGSIZE) argv = .ok (0, t)) :
    ∃ w ptrs, t.proc.pgdir = u.pgdir ∧ freevm ⟨s.proc.pgdir, w.kmem⟩ = .ok t.kmem ∧
      KeepsOutside u w g t.proc.tf.esp (g * PGSIZE + PGSIZE) ∧ g * PGSIZE ≤ t.proc.tf.esp ∧
      t.proc.tf.esp % 4 = 0 ∧ w.HasBytes t.proc.tf.esp
      (wordsBytes (stackWords t.proc.tf.esp ptrs)) ∧
      Stacked w (t.proc.tf.esp + (argv.length + 4) * 4) (g * PGSIZE + PGSIZE) argv ptrs := by
  obtain ⟨⟨ok, sp, ustack, v⟩, pushed, rest⟩ := bind_ok.mp done
  dsimp only at rest
  split at rest
  swap
  · cases execBad_fails rest
  rename_i yes
  subst yes
  obtain ⟨low, high, aligned, keeps, ptrs, eq, stacked⟩ := pushArgs_stacked top
    (Nat.le_add_right _ _)
    (Nat.le_refl _) (by simp only [PGSIZE]; omega) pushed
  rw [List.nil_append] at eq
  subst eq
  obtain ⟨⟨r, w⟩, copied, rest⟩ := bind_ok.mp rest
  split at rest
  · cases execBad_fails rest
  rename_i whole
  obtain ⟨k, freed, eq⟩ := bind_ok.mp rest
  cases eq
  have count := stacked.length
  have len : (wordsBytes
      ([0xffffffff, ustack.length, (sp + 2 ^ 32 - (ustack.length + 1) * 4) % 2 ^ 32] ++
      ustack ++ [0])).length = (ustack.length + 4) * 4 := by
    rw [wordsBytes_length]
    simp
  have exact_ : (sp + 2 ^ 32 - (ustack.length + 4) * 4) % 2 ^ 32 / 4 * 4 =
      (sp + 2 ^ 32 - (3 + ustack.length + 1) * 4) % 2 ^ 32 := by omega
  obtain ⟨fits, at_, inside⟩ := (keeps.pgdir ▸ top : StackTop v.pgdir g).room
      (show 0 < (ustack.length + 4) * 4 by omega)
    aligned low (by omega) fun a from_ to_ word => copyoutLoop_user copied whole (by omega)
      (by rw [len]; omega) word
  have esp : (sp + 2 ^ 32 - (3 + ustack.length + 1) * 4) % 2 ^ 32 = sp - (ustack.length + 4) * 4 :=
      by omega
  have third : (sp + 2 ^ 32 - (ustack.length + 1) * 4) % 2 ^ 32 =
      sp - (ustack.length + 4) * 4 + 12 := by
    have user := top.user
    simp only [UPAGES, KERNBASE, PGSIZE] at user high
    omega
  rw [esp, third] at copied
  rw [third] at len
  have back : sp - (ustack.length + 4) * 4 + (argv.length + 4) * 4 = sp := by omega
  obtain ⟨bytes, keeps'⟩ := copyout_page (by omega) (by rw [len]; omega) top.user copied whole
  rw [len] at keeps'
  have keeps'' : KeepsOutside v w g (sp - (ustack.length + 4) * 4) sp :=
    ⟨keeps'.pgdir, keeps'.freelist, fun a page out => keeps'.byte a page (by omega)⟩
  refine ⟨w, ustack, ?_, freed, ?_, ?_, ?_, ?_, ?_⟩
  · exact keeps'.pgdir.trans keeps.pgdir
  · dsimp only
    rw [esp]
    exact keeps.trans keeps'' (by omega) high
  · dsimp only
    omega
  · dsimp only
    omega
  · dsimp only
    rw [esp]
    exact bytes
  · dsimp only
    rw [esp, back]
    refine stacked.mono fun a from_ to_ => keeps''.byte a ?_ (.inr from_)
    simp only [PGSIZE] at low to_ ⊢
    omega

end Stack

/-- The arguments of a program on its stack: the words at tf->esp, the array of pointers after
them, and the strings above the array. -/
structure ArgsPassed (t : Vm) (argv : List (List UInt8)) (ptrs : List Nat) : Prop where
  length : ptrs.length = argv.length
  return_ : t.uvm.userWord t.proc.tf.esp = some 0xffffffff
  argc : t.uvm.userWord (t.proc.tf.esp + 4) = some argv.length
  array : t.uvm.userWord (t.proc.tf.esp + 8) = some (t.proc.tf.esp + 12)
  pointers : ∀ (i p : Nat), ptrs[i]? = some p → t.uvm.userWord (t.proc.tf.esp + 12 + 4 * i) = some p
  last : t.uvm.userWord (t.proc.tf.esp + 12 + 4 * argv.length) = some 0
  strings : ∀ (i : Nat) arg p, argv[i]? = some arg → ptrs[i]? = some p →
    t.uvm.HasBytes p (arg ++ [0])
  aligned : t.proc.tf.esp % 4 = 0
  top : t.proc.tf.esp + (argv.length + 4) * 4 ≤ t.proc.sz
  bottom : t.proc.sz ≤ t.proc.tf.esp + PGSIZE
  above : ∀ (i : Nat) arg p, argv[i]? = some arg → ptrs[i]? = some p →
    t.proc.tf.esp + (argv.length + 4) * 4 ≤ p ∧ p + (arg.length + 1) ≤ t.proc.sz
  apart : ∀ (i j : Nat) p arg q, i < j → ptrs[i]? = some p → argv[j]? = some arg →
    ptrs[j]? = some q → q + (arg.length + 1) ≤ p
  boundary : t.proc.sz % PGSIZE = 0
  page : (t.proc.pgdir.userPa (t.proc.sz / PGSIZE - 1)).isSome
  only : ∀ v, t.proc.sstack ≤ v * PGSIZE → v * PGSIZE + PGSIZE < t.proc.sz →
    t.proc.pgdir.entry v = none

section Passed
variable {u : Uvm} {esp hi : Nat} {argv : List (List UInt8)} {ptrs : List Nat}

theorem Stacked.ptr_le (h : Stacked u esp hi argv ptrs) (there : ptrs[i]? = some p) :
    p ≤ hi := by
  obtain ⟨inside, -⟩ := List.getElem?_eq_some_iff.mp there
  have below := (h.get (List.getElem?_eq_getElem (h.length ▸ inside)) there).2.1
  omega

theorem stackWords_ptr (there : ptrs[i]? = some p) :
    (stackWords esp ptrs)[3 + i]? = some p := by
  obtain ⟨inside, -⟩ := List.getElem?_eq_some_iff.mp there
  rw [stackWords, List.getElem?_append_left (by simp; omega), List.getElem?_append_right (by simp)]
  simpa using there

theorem stackWords_last : (stackWords esp ptrs)[3 + ptrs.length]? = some 0 := by
  have index : 3 + ptrs.length - ([0xffffffff, ptrs.length, esp + 12] ++ ptrs).length = 0 := by
    simp
    omega
  rw [stackWords, List.getElem?_append_right (by simp; omega), index]
  rfl

theorem userWord_stackWords (words : u.HasBytes esp (wordsBytes (stackWords esp ptrs))) {x : Nat}
    (there : (stackWords esp ptrs)[i]? = some x) (small : x < 2 ^ 32) :
      u.userWord (esp + 4 * i) = some x := by
  obtain ⟨inside, rfl⟩ := List.getElem?_eq_some_iff.mp there
  exact words.userWord inside small

end Passed

theorem ArgsPassed.of_stacked {t : Vm} {argv : List (List UInt8)} {ptrs : List Nat}
    (small : t.proc.sz < 2 ^ 32) (bottom : t.proc.sz ≤ t.proc.tf.esp + PGSIZE)
    (aligned : t.proc.tf.esp % 4 = 0) (boundary : t.proc.sz % PGSIZE = 0)
    (words : t.uvm.HasBytes t.proc.tf.esp (wordsBytes (stackWords t.proc.tf.esp ptrs)))
    (strings : Stacked t.uvm (t.proc.tf.esp + (argv.length + 4) * 4) t.proc.sz argv ptrs)
    (page : (t.proc.pgdir.userPa (t.proc.sz / PGSIZE - 1)).isSome)
    (only : ∀ v, t.proc.sstack ≤ v * PGSIZE → v * PGSIZE + PGSIZE < t.proc.sz →
      t.proc.pgdir.entry v = none) :
    ArgsPassed t argv ptrs where
  length := strings.length
  return_ := userWord_stackWords (i := 0) words rfl (by decide)
  argc := userWord_stackWords (i := 1) words (by rw [← strings.length]; rfl)
    (by have := strings.le; omega)
  array := userWord_stackWords (i := 2) words rfl (by have := strings.le; omega)
  pointers := fun i p there => by
    have := strings.ptr_le there
    rw [Nat.add_assoc, show 12 + 4 * i = 4 * (3 + i) by omega]
    exact userWord_stackWords words (stackWords_ptr there) (by omega)
  last := by
    rw [Nat.add_assoc, ← strings.length, show 12 + 4 * ptrs.length = 4 * (3 + ptrs.length) by omega]
    exact userWord_stackWords words stackWords_last (by decide)
  strings := fun i arg p string there => (strings.get string there).2.2
  aligned := aligned
  top := strings.le
  bottom := bottom
  above := fun i arg p string there =>
    ⟨(strings.get string there).1, (strings.get string there).2.1⟩
  apart := fun i j p arg q before ptr string ptr' => strings.apart before ptr string ptr'
  boundary := boundary
  page := page
  only := only

section Exec
variable {s t : Vm} {path : Path} {argv : List (List UInt8)}

theorem exec_steps (done : exec s path argv = .ok (0, t)) :
    ∃ i u v w sz sz' name entry, Opens s path i u ∧
      loadSegments (s.fs.inode i) (s.fs.inode i).phnum (s.fs.inode i).phoff 0 u =
      .ok (true, sz, v) ∧
      allocuvm v (stackPage sz) ((stackPage sz + PGSIZE) % 2 ^ 32) = .ok (sz', w) ∧
      execArgs { s with proc := { s.proc with sstack := stackStart sz } } name entry w sz' argv =
      .ok (0, t) := by
  unfold exec execWith at done
  split at done
  · cases done
  rename_i i found
  obtain ⟨⟨q, elf⟩, read, rest⟩ := bind_ok.mp done
  obtain ⟨rfl, short⟩ := readi_elf read
  dsimp only at rest
  rw [Fs.iput_iget] at rest
  split at rest
  · cases rest
  rename_i good
  push Not at good
  have isElf : (s.fs.inode i).isElf := ⟨by have := mt short.mpr (not_lt.mpr good.1); omega, good.2⟩
  obtain ⟨⟨d, k⟩, setup, rest⟩ := bind_ok.mp rest
  cases d with
  | none => cases rest
  | some d =>
    obtain ⟨⟨ok, sz, v⟩, loaded, rest⟩ := bind_ok.mp rest
    cases ok with
    | false => cases execBad_fails rest
    | true =>
      obtain ⟨⟨sz', w⟩, grown, rest⟩ := bind_ok.mp rest
      dsimp only at rest
      split at rest
      · cases execBad_fails rest
      · exact ⟨i, ⟨d, k⟩, v, w, sz, sz', _, _, ⟨found, isElf, setup⟩, loaded, grown, rest⟩

theorem PgDir.userPa_none (absent : d.entry v = none) : d.userPa v = none := by
  rw [PgDir.userPa, absent]
  rfl

theorem PgDir.Guarded.userPa (guarded : d.Guarded) (high : UPAGES ≤ v) :
    d.userPa v = none := by
  unfold PgDir.userPa
  cases there : d.entry v with
  | none => rfl
  | some e => simp [guarded v high e there]

theorem PgDir.count_userPa {pa : Nat} (user : v < UPAGES) (there : d.userPa v = some pa) :
    0 < d.count pa := by
  obtain ⟨e, entry, rfl⟩ := Option.map_eq_some_iff.mp there
  exact PgDir.count_entry user (Option.filter_eq_some_iff.mp entry).1

theorem NewDir.not_old {leak leak' : Prop} {u v w : Uvm} {x : Nat} (new : NewDir s u)
    (sole : s.uvm.Sole)
    (load : Moves leak True u v) (grow : Moves leak' True v w) (owned : 0 < w.pgdir.count x) :
    s.proc.pgdir.count x = 0 ∧ w.kmem.freelist.count x = 0 := by
  have once : s.proc.pgdir.count x + s.kmem.freelist.count x ≤ 1 := sole x
  have le : w.pgdir.count x + w.kmem.freelist.count x ≤ u.count x :=
    (grow.count_le x).trans (load.count_le x)
  rw [new.count] at le
  omega

end Exec

theorem JustExeced.stack {p : Proc} (h : JustExeced p) (guarded : p.pgdir.Guarded) :
    ∃ g, p.sz = g * PGSIZE + PGSIZE ∧ StackTop p.pgdir g := by
  obtain ⟨b, start⟩ : ∃ b, p.sstack = b * PGSIZE := ⟨p.sstack / PGSIZE, by
    have := h.aligned
    simp only [PGSIZE] at this ⊢
    omega⟩
  have size := h.size
  have low := h.low
  have hole := h.hole (b + 6)
  rw [start] at size hole
  refine ⟨b + 7, ?_, by omega, ?_, PgDir.userPa_none (hole ?_ ?_),
    fun v high => guarded.userPa high⟩
  all_goals
    simp only [UPAGES, KERNBASE, PGSIZE, MAXSTACKPAGES] at size low ⊢
    omega

theorem JustExeced.only {p : Proc} (h : JustExeced p) (from_ : p.sstack ≤ v * PGSIZE)
    (to_ : v * PGSIZE + PGSIZE < p.sz) : p.pgdir.entry v = none := by
  refine h.hole v (Nat.le_add_right_of_le from_) ?_
  rw [h.size, show MAXSTACKPAGES * PGSIZE = 7 * PGSIZE + PGSIZE from rfl, ← Nat.add_assoc] at to_
  exact Nat.lt_of_add_lt_add_right to_

/-- exec leaves the arguments on the one page of the new stack, and freevm of the old
directory does not reach that page. -/
theorem exec_stacks_args {s t : Vm} {path : Path} {argv : List (List UInt8)}
    (data : s.kmem.kdata.1 % PGSIZE = 0) (sole : s.uvm.Sole)
    (done : exec s path argv = .ok (0, t)) : ∃ ptrs, ArgsPassed t argv ptrs := by
  obtain ⟨i, u, v, w, sz, sz', name, entry, opens, loaded, grown, args⟩ := exec_steps done
  have image := (exec_image done).1
  have new := opens.newDir data
  have load := new.loaded loaded
  have grow : Moves _ True v w := allocuvm_starves grown
  obtain ⟨tf, proc⟩ := execArgs_image args
  have size : t.proc.sz = sz' := by rw [proc]
  have pgdir : t.proc.pgdir = w.pgdir := by rw [proc]
  obtain ⟨g, top, stack⟩ := image.stack (by rw [pgdir]; exact allocuvm_guarded load.guarded grown)
  rw [size] at top
  subst top
  rw [pgdir] at stack
  obtain ⟨x, ptrs, -, freed, keeps, bottom, aligned, words, strings⟩ := execArgs_stacked stack args
  have low := image.low
  rw [size] at low
  -- what is on the stack page survives freevm
  have same : ∀ a, a / PGSIZE = g → t.uvm.userByte a = x.userByte a := by
    intro a page
    have pages : t.uvm.pgdir = w.pgdir := pgdir
    unfold Uvm.userByte
    rw [keeps.pgdir, pages, page]
    cases owned : w.pgdir.userPa g with
    | none => rfl
    | some pa =>
      obtain ⟨old, free⟩ :=
        new.not_old sole (load.moves True (.inl trivial)) grow (PgDir.count_userPa stack.user owned)
      have kept := (freevm_frees freed).mem pa (by
        unfold Uvm.count
        rw [keeps.freelist, old, free])
      rw [Option.map_some, Option.map_some]
      exact congrArg some (congrFun kept _)
  have inside : ∀ a, t.proc.tf.esp ≤ a → a < g * PGSIZE + PGSIZE → a / PGSIZE = g := by
    intro a from_ to_
    exact Nat.div_eq_of_lt_le (Nat.le_trans bottom from_) (by rw [Nat.succ_mul]; exact to_)
  have fits := strings.le
  have len : (wordsBytes (stackWords t.proc.tf.esp ptrs)).length = (argv.length + 4) * 4 := by
    rw [wordsBytes_length]
    simp [stackWords, strings.length]
  rw [← size] at strings
  have words' := words.mono fun a from_ to_ => same a (inside a from_ (by rw [len] at to_; omega))
  have strings' := strings.mono fun a from_ to_ => same a (inside a (by omega) (size ▸ to_))
  refine ⟨ptrs, .of_stacked (lt_trans image.low (by decide)) ?_ aligned ?_ words' strings' ?_
    fun v from_ to_ => ?_⟩
  · rw [size]
    exact Nat.add_le_add_right bottom _
  · rw [size, ← Nat.succ_mul]
    exact Nat.mul_mod_left _ _
  · have first := words' 0 (by rw [len]; omega)
    rw [size, ← Nat.succ_mul, Nat.mul_div_cancel _ (by decide), Nat.succ_sub_one,
      ← inside t.proc.tf.esp (Nat.le_refl _) (by omega)]
    rw [List.getElem?_eq_getElem (by rw [len]; omega)] at first
    obtain ⟨pa, there, -⟩ := Option.map_eq_some_iff.mp first
    rw [show t.proc.pgdir.userPa (t.proc.tf.esp / PGSIZE) = some pa from there]
    rfl
  · exact image.only from_ to_

section OneArgument
variable {s : Vm} {w : Uvm}

theorem StackOnly.all (stack : StackOnly w) {va len : Nat} (low : 0x8000 ≤ va)
    (high : va + len ≤ 0x9000) :
    AllUser w.pgdir va len := by
  intro a from_ to_
  obtain ⟨e, top, user, -⟩ := stack.top
  have page : a / PGSIZE = 8 := by
    simp only [PGSIZE]
    omega
  rw [page, PgDir.userPa, top]
  simp [user]

theorem execArgs_one (arg : List UInt8) (sz sp esp : Nat) (name : List UInt8) (entry : Nat)
    (high : sz ≤ 2 ^ 32) (at_ : (sz + 2 ^ 32 - (arg.length + 1)) % 2 ^ 32 / 4 * 4 = sp)
    (top : sp + (arg.length + 1) ≤ sz) (below : (sp + 2 ^ 32 - 20) % 2 ^ 32 = esp)
    (room : esp + 20 ≤ sp)
    (user : AllUser w.pgdir esp (sz - esp)) (old : ∀ k : Kmem, k.freelist = w.kmem.freelist →
      k.kend = w.kmem.kend → Uvm.Valid ⟨s.proc.pgdir, k⟩) :
    ∃ t, execArgs s name entry w sz [arg] = .ok (0, t) ∧ t.proc.sz = sz ∧ t.proc.tf.esp = esp := by
  have len : (arg ++ [0]).length = arg.length + 1 := by simp
  have above : AllUser w.pgdir sp (arg ++ [0]).length := fun a low less =>
    user a (by omega) (by omega)
  obtain ⟨v, string, first⟩ := copyout_all above (by omega)
  let words := [0xffffffff, 1, (sp + 2 ^ 32 - 8) % 2 ^ 32, sp, 0]
  have len' : (wordsBytes words).length = 20 := by rw [wordsBytes_length]; rfl
  have under : AllUser v.pgdir esp (wordsBytes words).length := fun a low less => by
    rw [first.pgdir]
    exact user a low (by omega)
  obtain ⟨x, array, second⟩ := copyout_all under (by omega)
  have kend : x.kmem.kend = w.kmem.kend := by
    have moves : Moves False True w v := (copyoutLoop_moves (.inl trivial) string).1
    have moves' : Moves False True v x := (copyoutLoop_moves (.inl trivial) array).1
    rw [moves'.fixed.1, moves.fixed.1]
  obtain ⟨k, freed⟩ := freevm_returns (old x.kmem (second.freelist.trans first.freelist) kend)
  have pushed : pushArgs [arg] 0 sz [] w = .ok (true, sp, [sp], v) := by
    rw [pushArgs, if_neg (by decide), at_]
    dsimp only
    rw [string]
    rfl
  subst below
  refine ⟨{ s with
    proc := { s.proc with
      name := name, pgdir := x.pgdir, sz := sz, tf := ⟨entry, (sp + 2 ^ 32 - 20) % 2 ^ 32⟩ }
    kmem := k }, ?_, rfl, rfl⟩
  unfold execArgs
  rw [pushed, ok_bind]
  dsimp only
  rw [if_pos rfl]
  change (copyout v ((sp + 2 ^ 32 - 20) % 2 ^ 32) (wordsBytes words) >>= _) = _
  rw [array, ok_bind]
  dsimp only
  rw [if_neg (by decide), freed]
  rfl

end OneArgument

def starting : Vm := { scarce 80 with
  proc := { sz := 2 * PGSIZE, pgdir := onePageDir.set 1 (some (userPte 0x403)) } }

theorem starting_count (x : Nat) :
    starting.proc.pgdir.count x = onePageDir.count x + if x = 0x403 then 1 else 0 :=
  PgDir.count_map (by decide) (by decide) (by decide) _ _

theorem starting_sole : starting.uvm.Sole := by
  intro x
  obtain ⟨once, list⟩ := count_range' 80 x
  change starting.proc.pgdir.count x + (List.range' 0x900 80).count x ≤ 1
  rw [starting_count, onePageDir_count]
  split_ifs <;> omega

theorem starting_valid {k : Kmem} (kend : k.kend = 0x115)
    (free : ∀ x ∈ k.freelist, 0x115 ≤ x ∧ x < 0xE000) : Uvm.Valid ⟨starting.proc.pgdir, k⟩ := by
  refine ⟨by rw [kend]; decide, fun x pos => ?_⟩
  have free' : 0 < k.freelist.count x → 0x115 ≤ x ∧ x < 0xE000 := fun pos =>
    free x (List.count_pos_iff.mp pos)
  change 0 < starting.proc.pgdir.count x + k.freelist.count x at pos
  rw [starting_count, onePageDir_count] at pos
  rw [kend, show PHYSTOP / PGSIZE = 0xE000 by decide]
  split_ifs at pos <;> omega

theorem starting_execs : ∃ t, exec starting programPath [[97]] = .ok (0, t) := by
  obtain ⟨w, stack, same, -, run⟩ := exec_program (s := starting) (i := 0) programPath rfl rfl
    (freelist_legal (by decide)) (by decide) [[97]]
  obtain ⟨t, done, -⟩ := execArgs_one [97] 0x9000 0x8FFC 0x8FE8
    (s := { starting with proc := { starting.proc with sstack := 0x1000 } }) programPath.last 0
    (by decide) (by decide) (by decide) (by decide) (by decide) (stack.all (by decide) (by decide))
    fun k list kend => starting_valid (kend.trans same) fun x free => by
      have page := stack.valid.page x (Uvm.count_free (list ▸ free))
      rwa [same] at page
  exact ⟨t, run.trans done⟩

end MmapXv6
