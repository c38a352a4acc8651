import Mathlib.Data.List.Nodup

/-! Doubly linked rings through a head node. A ring is described by the list of its
other nodes in order: following next from the head visits the list, following prev
visits it backwards, and both end at the head. -/
namespace Lib

open Function

section Path
variable {N : Type*}

/-- Following f from a visits the nodes of the list and then reaches c. -/
def Path (f : N → N) : N → List N → N → Prop
  | a, [], c => f a = c
  | a, x :: xs, c => f a = x ∧ Path f x xs c

theorem Path.congr {f g : N → N} {a c : N} {xs : List N} (h : Path f a xs c)
    (same : ∀ x ∈ a :: xs, g x = f x) : Path g a xs c := by
  induction xs generalizing a with
  | nil => exact (same a List.mem_cons_self).trans h
  | cons x xs ih =>
    exact ⟨(same a List.mem_cons_self).trans h.1,
      ih h.2 (fun y hy => same y (List.mem_cons_of_mem a hy))⟩

theorem path_append {f : N → N} {a x c : N} {xs ys : List N} :
    Path f a (xs ++ x :: ys) c ↔ Path f a xs x ∧ Path f x ys c := by
  induction xs generalizing a with
  | nil => exact Iff.rfl
  | cons y xs ih => simp only [List.cons_append, Path, ih, and_assoc]

theorem Path.first {f : N → N} {a c : N} {xs : List N} (h : Path f a xs c) :
    f a = xs.head?.getD c := by
  cases xs with
  | nil => exact h
  | cons x xs => exact h.1

theorem Path.restart {f g : N → N} {a b c : N} {xs : List N} (h : Path f a xs c) (first : g b = f a)
    (same : ∀ x ∈ xs, g x = f x) : Path g b xs c := by
  cases xs with
  | nil => exact first.trans h
  | cons x xs => exact ⟨first.trans h.1, h.2.congr same⟩

theorem Path.maps {f : N → N} {a c x : N} {xs : List N} (h : Path f a xs c) (mem : x ∈ a :: xs) :
    f x ∈ xs ++ [c] := by
  induction xs generalizing a with
  | nil =>
    cases List.mem_singleton.mp mem
    exact List.mem_singleton.mpr h
  | cons y xs ih =>
    rcases List.mem_cons.mp mem with rfl | mem
    · rw [h.1]
      exact List.mem_cons_self
    · exact List.mem_cons_of_mem y (ih h.2 mem)

def Visits (f : N → N) : List N → N → Prop
  | [], _ => True
  | x :: xs, c => Path f x xs c

theorem visits_append {f : N → N} {x c : N} {xs ys : List N} :
    Visits f (xs ++ x :: ys) c ↔ Visits f xs x ∧ Path f x ys c := by
  cases xs with
  | nil => simp [Visits]
  | cons y xs => exact path_append

theorem Visits.congr {f g : N → N} {c : N} {xs : List N} (h : Visits f xs c)
    (same : ∀ x ∈ xs, g x = f x) : Visits g xs c := by
  cases xs with
  | nil => trivial
  | cons x xs => exact Path.congr h same

theorem Path.rotate {f : N → N} {a x : N} {xs front back : List N} (h : Path f a xs a)
    (split : a :: xs = front ++ x :: back) : Path f x (back ++ front) x := by
  cases front with
  | nil =>
    cases split
    rwa [List.append_nil]
  | cons y front =>
    cases split
    exact path_append.mpr (path_append.mp h).symm

variable [DecidableEq N]

theorem Path.retarget {f : N → N} {a c d : N} {xs : List N} (h : Path f a xs c)
    (once : (a :: xs).Nodup) :
    Path (update f (xs.getLast?.getD a) d) a xs d := by
  induction xs generalizing a with
  | nil => exact update_self _ _ _
  | cons x xs ih =>
    rw [List.nodup_cons] at once
    have last : (x :: xs).getLast?.getD a = xs.getLast?.getD x := by
      rw [List.getLast?_cons]
      rfl
    have away : a ≠ xs.getLast?.getD x := by
      rintro rfl
      cases e : xs.getLast? with
      | none => simp [e] at once
      | some y =>
        rw [e] at once
        exact once.1 (List.mem_cons_of_mem x (List.mem_of_getLast? e))
    rw [last]
    exact ⟨(update_of_ne away _ _).trans h.1, ih h.2 once.2⟩

theorem Path.cut {f : N → N} {a b c : N} {xs ys : List N} (h : Path f a (xs ++ b :: ys) c)
    (once : (a :: (xs ++ b :: ys)).Nodup) :
    Path (update f (xs.getLast?.getD a) (f b)) a (xs ++ ys) c := by
  obtain ⟨front, back⟩ := path_append.mp h
  have frontOnce : (a :: xs).Nodup :=
      once.sublist (List.Sublist.cons_cons a (List.sublist_append_left xs _))
  have turned := front.retarget (d := f b) frontOnce
  have last : xs.getLast?.getD a ∈ a :: xs := by
    cases e : xs.getLast? with
    | none => simp
    | some y => exact List.mem_cons_of_mem a (List.mem_of_getLast? e)
  have apart : ∀ y ∈ ys, y ∉ a :: xs := by
    intro y hy hx
    have split : (a :: xs ++ b :: ys).Nodup := once
    exact (List.disjoint_of_nodup_append split) hx (List.mem_cons_of_mem b hy)
  cases ys with
  | nil => rw [List.append_nil]; exact (show f b = c from back) ▸ turned
  | cons y ys =>
    have kept : ∀ z ∈ y :: ys, update f (xs.getLast?.getD a) (f b) z = f z := by
      intro z hz
      refine update_of_ne ?_ _ _
      rintro rfl
      exact apart _ hz last
    exact path_append.mpr ⟨back.1 ▸ turned, back.2.congr kept⟩

end Path

section Ring
variable {N : Type*} [DecidableEq N]

structure Links (N : Type*) where
  next : N → N
  prev : N → N

/-- The ring through head whose other nodes are xs, in order. -/
structure IsRing (l : Links N) (head : N) (xs : List N) : Prop where
  forth : Path l.next head xs head
  back : Path l.prev head xs.reverse head
  once : (head :: xs).Nodup

/-- b->next->prev = b->prev; b->prev->next = b->next. -/
def Links.unlink (l : Links N) (b : N) : Links N :=
  let l := { l with prev := update l.prev (l.next b) (l.prev b) }
  { l with next := update l.next (l.prev b) (l.next b) }

/-- b->next = head.next; b->prev = head; head.next->prev = b; head.next = b. -/
def Links.pushFront (l : Links N) (head b : N) : Links N :=
  let l := { l with next := update l.next b (l.next head) }
  let l := { l with prev := update l.prev b head }
  let l := { l with prev := update l.prev (l.next head) b }
  { l with next := update l.next head b }

theorem IsRing.unlink {l : Links N} {head b : N} {xs ys : List N}
    (h : IsRing l head (xs ++ b :: ys)) : IsRing (l.unlink b) head (xs ++ ys) := by
  have reversed : (xs ++ b :: ys).reverse = ys.reverse ++ b :: xs.reverse := by simp
  have backOnce : (head :: (ys.reverse ++ b :: xs.reverse)).Nodup := by
    rw [← reversed]
    exact ((List.reverse_perm _).cons head).nodup_iff.mpr h.once
  have back : Path l.prev head (ys.reverse ++ b :: xs.reverse) head := reversed ▸ h.back
  have after : l.next b = ys.reverse.getLast?.getD head := by
    rw [(path_append.mp h.forth).2.first, List.getLast?_reverse]
  have before : l.prev b = xs.getLast?.getD head := by
    rw [(path_append.mp back).2.first, List.head?_reverse]
  have distinct : l.next b ≠ b := by
    rw [after, List.getLast?_reverse]
    have once := h.once
    rw [List.nodup_cons] at once
    cases ys with
    | nil => rintro rfl; exact once.1 (by simp)
    | cons y ys =>
      rintro rfl
      have := (List.nodup_append.mp once.2).2.1
      simp at this
  constructor
  · have cut := h.forth.cut h.once
    simp only [Links.unlink, update_of_ne (Ne.symm distinct), before]
    exact cut
  · have cut := back.cut backOnce
    rw [List.reverse_append]
    simp only [Links.unlink, after]
    exact cut
  · exact h.once.sublist (by simp)

theorem IsRing.pushFront {l : Links N} {head b : N} {xs : List N} (h : IsRing l head xs)
    (fresh : b ∉ head :: xs) : IsRing (l.pushFront head b) head (b :: xs) := by
  have ne : b ≠ head := fun e => fresh (e ▸ List.mem_cons_self)
  have out : b ∉ xs := fun m => fresh (List.mem_cons_of_mem head m)
  have once := h.once
  rw [List.nodup_cons] at once
  have first : l.next head = xs.reverse.getLast?.getD head := by
    rw [h.forth.first, List.getLast?_reverse]
  have firstNe : l.next head ≠ b := by
    rw [h.forth.first]
    cases xs with
    | nil => exact Ne.symm ne
    | cons x xs => rintro rfl; exact out List.mem_cons_self
  refine ⟨⟨update_self _ _ _, ?_⟩, ?_, ?_⟩
  · refine h.forth.restart ?_ (fun x hx => ?_)
    · simp [Links.pushFront, update_of_ne ne]
    · have xh : x ≠ head := by rintro rfl; exact once.1 hx
      have xb : x ≠ b := by rintro rfl; exact out hx
      simp [Links.pushFront, xh, xb]
  · rw [List.reverse_cons]
    have backOnce : (head :: xs.reverse).Nodup :=
      ((List.reverse_perm xs).cons head).nodup_iff.mpr h.once
    refine path_append.mpr ⟨?_, ?_⟩
    · refine ((h.back.retarget (d := b) backOnce).congr (fun x hx => ?_))
      have xb : x ≠ b := by
        rintro rfl
        exact fresh (by simpa using hx)
      simp only [Links.pushFront, update_of_ne (Ne.symm ne), first]
      by_cases e : x = xs.reverse.getLast?.getD head
      · rw [← e, update_self, update_self]
      · rw [update_of_ne e, update_of_ne e, update_of_ne xb]
    · simp only [Links.pushFront, Path, update_of_ne (Ne.symm ne)]
      rw [update_of_ne (Ne.symm firstNe), update_self]
  · exact List.nodup_cons.mpr
      ⟨by simpa using ⟨Ne.symm ne, once.1⟩, List.nodup_cons.mpr ⟨out, once.2⟩⟩

end Ring

end Lib
