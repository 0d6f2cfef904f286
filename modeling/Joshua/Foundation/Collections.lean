/-
Module: Joshua.Foundation.Collections
Purpose: Vector and iterator operations whose result depends on positions or
  on tie-breaking: swap-removal, the first minimum and the last maximum of a
  key, the last position with a property; the size of a flat map.
Trusted boundary: none
-/
import Mathlib.Algebra.GroupWithZero.Nat
import Mathlib.Data.Nat.Find
import Mathlib.Order.Lattice

namespace Joshua.Foundation
open List

/-!
`swapRemove` takes the element at an index out of a vector in constant time:
the last element moves into the hole.  Everything the callers need about the
elements left follows from one permutation, so no proof above this file looks
at positions.
-/

section SwapRemove
variable {α : Type*}

/-- Remove the element at `index`, filling its place with the last one. -/
def swapRemove (items : List α) (index : Nat) : List α :=
  match items.getLast? with
  | none => []
  | some last => (items.set index last).dropLast

variable {items : List α} {i : Nat} {item : α}

lemma split_at_getElem? (found : items[i]? = some item) :
    ∃ before after, items = before ++ item :: after ∧ before.length = i := by
  obtain ⟨inside, value⟩ := List.getElem?_eq_some_iff.mp found
  refine ⟨items.take i, items.drop (i + 1), ?_, ?_⟩
  · rw [← value, getElem_cons_drop, take_append_drop]
  · rw [length_take]
    exact min_eq_left (le_of_lt inside)

private lemma swapRemove_last (front : List α) (item : α) :
    swapRemove (front ++ [item]) front.length = front := by
  simp [swapRemove]

private lemma swapRemove_inside (before after : List α) (item last : α) :
    swapRemove (before ++ item :: (after ++ [last])) before.length = before ++ last :: after := by
  have moved : (last :: (after ++ [last])).dropLast = last :: after := by
    rw [← cons_append, dropLast_concat]
  simp [swapRemove, getLast?_cons, dropLast_append_of_ne_nil, moved]

/-- The element taken out and the elements left are the elements there were. -/
lemma swapRemove_perm (found : items[i]? = some item) :
    (item :: swapRemove items i).Perm items := by
  obtain ⟨before, after, split, position⟩ := split_at_getElem? found
  subst split position
  rcases eq_nil_or_concat after with empty | ⟨middle, last, concat⟩
  · subst empty
    rw [swapRemove_last]
    exact (perm_append_singleton item before).symm
  · subst concat
    rw [concat_eq_append, swapRemove_inside]
    have moved : (before ++ last :: middle).Perm (before ++ (middle ++ [last])) :=
      (perm_append_singleton last middle).symm.append_left before
    exact (moved.cons item).trans perm_middle.symm

lemma swapRemove_length (found : items[i]? = some item) :
    (swapRemove items i).length + 1 = items.length := by
  simpa using (swapRemove_perm found).length_eq

end SwapRemove

/-- Overwriting an element by one with the same image changes no image. -/
lemma map_set_of_eq {α β : Type*} {f : α → β} {items : List α} {i : Nat} {item other : α}
    (found : items[i]? = some item) (same : f other = f item) :
    (items.set i other).map f = items.map f := by
  obtain ⟨before, after, rfl, rfl⟩ := split_at_getElem? found
  simp [same]

/-!
Rust's `min_by_key` keeps the first of several minima and `max_by_key` the
last of several maxima.  Both are stated by recursion on the tail, so that the
tie rule is visible in the comparison.
-/

section Extrema
variable {α κ : Type*} [LinearOrder κ]

/-- The first element whose key is least. -/
def minByKey? (key : α → κ) : List α → Option α
  | [] => none
  | item :: rest =>
    match minByKey? key rest with
    | none => some item
    | some best => if key best < key item then some best else some item

/-- The last element whose key is greatest. -/
def maxByKey? (key : α → κ) : List α → Option α
  | [] => none
  | item :: rest =>
    match maxByKey? key rest with
    | none => some item
    | some best => if key best < key item then some item else some best

variable {items : List α} {key : α → κ} {item : α}

lemma minByKey?_mem (found : minByKey? key items = some item) : item ∈ items := by
  induction items generalizing item with
  | nil => cases found
  | cons head rest ih =>
    rw [minByKey?] at found
    split at found
    · simp_all
    · split at found <;> simp_all

lemma minByKey?_eq_none : minByKey? key items = none ↔ items = [] := by
  cases items with
  | nil => simp [minByKey?]
  | cons head rest =>
    simp only [minByKey?, reduceCtorEq, iff_false]
    split <;> (try split) <;> simp

lemma maxByKey?_mem (found : maxByKey? key items = some item) : item ∈ items := by
  induction items generalizing item with
  | nil => cases found
  | cons head rest ih =>
    rw [maxByKey?] at found
    split at found
    · simp_all
    · split at found <;> simp_all

lemma maxByKey?_eq_none : maxByKey? key items = none ↔ items = [] := by
  cases items with
  | nil => simp [maxByKey?]
  | cons head rest =>
    simp only [maxByKey?, reduceCtorEq, iff_false]
    split <;> (try split) <;> simp

lemma maxByKey?_ge {other : α} (found : maxByKey? key items = some item) (mem : other ∈ items) :
    key other ≤ key item := by
  induction items generalizing item with
  | nil => cases mem
  | cons head rest ih =>
    rw [maxByKey?] at found
    split at found
    next empty =>
      cases found
      rw [maxByKey?_eq_none.mp empty] at mem
      rw [mem_singleton.mp mem]
    next best tailEq =>
      rcases mem_cons.mp mem with rfl | later
      · split at found
        next => cases found; exact le_refl _
        next notLess => cases found; exact not_lt.mp notLess
      · have bounded := ih tailEq later
        split at found
        next less => cases found; exact bounded.trans less.le
        next => cases found; exact bounded

end Extrema

/-- What one of several parties has noted behind a further entry. -/
lemma mem_update_cons {ι α : Type*} [DecidableEq ι] {records : ι → List α} {i j : ι}
    {entry extra : α} : entry ∈ Function.update records i (extra :: records i) j ↔
      j = i ∧ entry = extra ∨ entry ∈ records j := by
  by_cases same : j = i
  · subst same
    simp
  · simp [same]

/-- The last of the positions `1, …, bound` with a property. -/
def lastUpTo (p : Nat → Bool) : Nat → Option Nat
  | 0 => none
  | bound + 1 => if p (bound + 1) then some (bound + 1) else lastUpTo p bound

variable {p q : Nat → Bool} {bound position : Nat}

lemma lastUpTo_eq_some : lastUpTo p bound = some position ↔
      0 < position ∧ position ≤ bound ∧ p position = true ∧
        ∀ later, position < later → later ≤ bound → p later = false := by
  have greatest : lastUpTo p bound = some position ↔
      0 < position ∧ Nat.findGreatest (p · = true) bound = position := by
    induction bound with
    | zero =>
      rw [lastUpTo, Nat.findGreatest_zero]
      simpa using Nat.ne_of_lt
    | succ bound ih =>
      rw [lastUpTo, Nat.findGreatest_succ]
      split_ifs with found
      · simp only [Option.some.injEq]
        omega
      · exact ih
  rw [greatest, Nat.findGreatest_eq_iff]
  simp only [Bool.not_eq_true]
  refine and_congr_right fun pos => and_congr_right fun _ => and_congr_left fun _ => ?_
  exact ⟨fun holds => holds pos.ne', fun holds _ => holds⟩

/-- The search looks only at the positions it passes. -/
lemma lastUpTo_congr
    (same : ∀ position, 0 < position → position ≤ bound → p position = q position) :
    lastUpTo p bound = lastUpTo q bound := by
  induction bound with
  | zero => rfl
  | succ bound ih =>
    rw [lastUpTo, lastUpTo, same (bound + 1) (Nat.succ_pos _) le_rfl,
      ih fun position pos small => same position pos (Nat.le_succ_of_le small)]

end Joshua.Foundation
