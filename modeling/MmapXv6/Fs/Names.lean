import MmapXv6.Fs.Path

/-! sys_link of sysfile.c on the inodes of a file system. Link counts are below this level. -/
namespace MmapXv6

open Lib (Byte Bytes byte bind_ok ok_bind)
open Function (update update_of_ne update_self)

variable {fs fs' : Nat → Inode} {cwd : Nat} {junk : Bytes}

def sysLink (fs : Nat → Inode) (cwd : Nat) (old new : List Byte) (junk : Bytes) :
    Except Panic (Int × (Nat → Inode)) := do
  match ← namei fs cwd old junk with
  | none => .ok (-1, fs)
  | some ip =>
    if (fs ip).type = .dir then .ok (-1, fs)
    else match ← nameiparent fs cwd new junk with
      | none => .ok (-1, fs)
      | some (dp, name) => do
        let (r, d) ← dirlink (fs dp) name ip
        if r < 0 then .ok (-1, fs) else .ok (0, update fs dp d)

/-- What is found in a directory of fs is found in fs'. -/
def Finds (fs fs' : Nat → Inode) : Prop := ∀ ip, ((fs ip).type = .dir → (fs' ip).type = .dir) ∧
  ∀ name r, dirlookup (fs ip) name = .ok (some r) → dirlookup (fs' ip) name = .ok (some r)

theorem Finds.namexLoop (finds : Finds fs fs') {parent : Bool} {fuel ip : Nat} {path : List Byte}
    {name : Bytes} {r : Nat × Bytes}
    (found : namexLoop fs parent fuel path name ip = .ok (some r)) :
    namexLoop fs' parent fuel path name ip = .ok (some r) := by
  induction fuel generalizing path name ip with
  | zero => cases found
  | succ fuel ih =>
    rw [MmapXv6.namexLoop] at found ⊢
    cases skipped : skipelem path name with
    | none => rwa [skipped] at found
    | some rest =>
      simp only [skipped] at found ⊢
      by_cases dir : (fs ip).type = .dir
      · simp only [dir, (finds ip).1 dir, ne_eq, not_true_eq_false, if_false] at found ⊢
        split at found
        · rwa [if_pos ‹_›]
        · rw [if_neg ‹_›]
          obtain ⟨entry, looked, walked⟩ := bind_ok.mp found
          cases entry with
          | none => cases walked
          | some entry =>
            rw [(finds ip).2 _ _ looked]
            exact ih walked
      · rw [if_pos dir] at found
        cases found

theorem namei_found {path : List Byte} {ip : Nat} : namei fs cwd path junk = .ok (some ip) ↔
    ∃ name, namex fs cwd path false junk = .ok (some (ip, name)) := by
  unfold namei
  rcases namex fs cwd path false junk with e | _ | ⟨i, name⟩ <;> simp [Except.map]

theorem Inode.DirOk.adds {dp d : Inode} {n inum : Nat} {name : Bytes} {r : Int} (h : dp.DirOk n)
    (pos : 0 < inum) (small : inum < 2 ^ 16) (linked : dirlink dp name inum = .ok (r, d))
    (done : ¬r < 0) : d.type = .dir ∧ (∃ off, dirlookup d name = .ok (some (inum, off))) ∧
      ∀ other r, dirlookup dp other = .ok (some r) → dirlookup d other = .ok (some r) := by
  have ends := h.link name inum
  rw [linked] at ends
  cases ends with
  | present => exact absurd (by decide) done
  | @added _ k absent place empty set kept =>
    have inum' : d.inumAt k = inum := by rw [set.inum, if_pos rfl, Nat.mod_eq_of_lt small]
    have there := kept.find_eq.mpr ⟨by omega, by omega, (set.name k).trans (if_pos rfl)⟩
    refine ⟨kept.type, ⟨_, by rw [kept.lookup, there, Option.map_some, inum']⟩,
      fun other r found => ?_⟩
    rw [set.sameOthers h kept rfl place (fun _ => rfl)
      (fun below live => absurd (empty below) live), found]
    intro same
    rw [dirlookup_congr same, h.lookup, absent] at found
    cases found

/-- After a link both names resolve to the inode, and so does every path that resolved before. -/
theorem link_adds_a_name {old new : List Byte} {ip : Nat}
    (dirs : ∀ ip, (fs ip).type = .dir → ∃ n, (fs ip).DirOk n)
    (source : namei fs cwd old junk = .ok (some ip)) (pos : 0 < ip) (small : ip < 2 ^ 16)
    (done : sysLink fs cwd old new junk = .ok (0, fs')) :
    namei fs' cwd new junk = .ok (some ip) ∧
      ∀ cwd path ip, namei fs cwd path junk = .ok (some ip) →
      namei fs' cwd path junk = .ok (some ip) := by
  unfold sysLink at done
  rw [source, ok_bind] at done
  dsimp only at done
  split at done
  · cases done
  · obtain ⟨found, second, rest⟩ := bind_ok.mp done
    cases found with
    | none => cases rest
    | some dp =>
      obtain ⟨⟨r, d⟩, linked, last⟩ := bind_ok.mp rest
      split at last
      · cases last
      · rename_i added
        cases last
        have dir : (fs dp.1).type = .dir := by
          by_contra other
          simp [dirlink, dirlookup, other, bind, Except.bind] at linked
        obtain ⟨n, ok⟩ := dirs _ dir
        obtain ⟨type, ⟨off, looked⟩, kept⟩ := ok.adds pos small linked added
        have finds : Finds fs (update fs dp.1 d) := by
          intro i
          by_cases e : i = dp.1
          · rw [e, update_self]
            exact ⟨fun _ => type, kept⟩
          · rw [update_of_ne e]
            exact ⟨id, fun _ _ => id⟩
        refine ⟨?_, fun _ _ _ old => namei_found.mpr
          ((namei_found.mp old).imp fun _ => finds.namexLoop)⟩
        have some : elements new ≠ [] := by
          intro none
          rw [nameiparent, namex, namexLoop_no_parent _ _ _ _ _ none] at second
          cases second
        rw [namei, namex, namexLoop_parent _ _ _ _ _ (Nat.lt_succ_self _) some,
          finds.namexLoop second, ok_bind]
        dsimp only
        rw [update_self, looked]
        rfl

def oneFile : Nat → Inode := fun i => if i = ROOTINO then
  { type := .dir, size := DIRENT, data := fun j => if j = 0 then 2 else if j = 2 then
    byte 'a' else 0 }
  else {}

/-- link a b in a root directory that has only a. -/
theorem link_adds_a_name_b : ∃ fs', sysLink oneFile 1 [byte 'a'] [byte 'b'] (fun _ => 0) =
    .ok (0, fs') ∧ namei fs' 1 [byte 'b'] (fun _ => 0) = .ok (some 2) := by
  have dirs : ∀ ip, (oneFile ip).type = .dir → ∃ n, (oneFile ip).DirOk n := by
    intro ip dir
    by_cases e : ip = ROOTINO
    · subst e
      exact ⟨1, rfl, rfl, by decide, fun j k one one' _ _ _ => by omega⟩
    · simp [oneFile, e] at dir
  obtain ⟨fs', done⟩ : ∃ fs', sysLink oneFile 1 [byte 'a'] [byte 'b'] (fun _ => 0) = .ok (0, fs') :=
    ⟨_, rfl⟩
  have source : namei oneFile 1 [byte 'a'] (fun _ => 0) = .ok (some 2) := by decide +kernel
  exact ⟨fs', done, (link_adds_a_name dirs source (by decide) (by decide) done).1⟩

end MmapXv6
