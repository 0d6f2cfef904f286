/-
Module: Joshua.Foundation.Text
Purpose: Searching a text that is still arriving for the first of several
  markers: what is found stays found, and of a text without a marker only a
  short tail can still become part of one; replacing every occurrence of a
  pattern; texts whose letters take up more than one unit of storage: where an
  offset in units falls between two letters, and how to cut there.
Trusted boundary: none
-/
import Joshua.Foundation.Collections
import Mathlib.Data.List.Infix

namespace Joshua.Foundation

variable {α : Type*}

section
variable (size : α → Nat)

/-- The units a text takes up. -/
def width : List α → Nat
  | [] => 0
  | letter :: rest => size letter + width rest

/-- Cut a text at an offset that falls between two letters. -/
def splitAt? : Nat → List α → Option (List α × List α)
  | 0, text => some ([], text)
  | _ + 1, [] => none
  | offset + 1, letter :: rest =>
    if size letter ≤ offset + 1 then
      (splitAt? (offset + 1 - size letter) rest).map fun parts => (letter :: parts.1, parts.2)
    else
      none

def isBoundary (text : List α) (offset : Nat) : Bool :=
  (splitAt? size offset text).isSome

@[simp]
lemma width_nil : width size [] = 0 :=
  rfl

@[simp]
lemma width_cons (letter : α) (rest : List α) :
    width size (letter :: rest) = size letter + width size rest :=
  rfl

@[simp]
lemma width_append (first second : List α) :
    width size (first ++ second) = width size first + width size second := by
  induction first with
  | nil => simp
  | cons letter rest ih => rw [List.cons_append, width_cons, width_cons, ih, add_assoc]

variable {size}

section Positive
variable (positive : ∀ letter, 0 < size letter)
include positive

variable {text : List α}

lemma width_pos (filled : text ≠ []) : 0 < width size text := by
  cases text with
  | nil => exact absurd rfl filled
  | cons letter rest =>
    rw [width_cons]
    exact Nat.add_pos_left (positive letter) _

lemma width_eq_zero : width size text = 0 ↔ text = [] := by
  constructor
  · intro empty
    by_contra filled
    exact absurd empty (Nat.ne_of_gt (width_pos positive filled))
  · rintro rfl
    rfl

lemma splitAt?_width (first second : List α) :
    splitAt? size (width size first) (first ++ second) = some (first, second) := by
  induction first with
  | nil => cases second <;> rfl
  | cons letter rest ih =>
    obtain ⟨more, total⟩ : ∃ more, size letter + width size rest = more + 1 :=
      Nat.exists_eq_succ_of_ne_zero (Nat.ne_of_gt (Nat.add_pos_left (positive letter) _))
    have fits : size letter ≤ more + 1 := by omega
    have left : more + 1 - size letter = width size rest := by omega
    rw [width_cons, total, List.cons_append, splitAt?, if_pos fits, left, ih]
    rfl

variable {first second : List α}

/-- A cut is a way to write the text with the offset as the first width. -/
lemma splitAt?_eq_some {offset : Nat} : splitAt? size offset text = some (first, second) ↔
      text = first ++ second ∧ width size first = offset := by
  constructor
  · intro cut
    fun_induction splitAt? size offset text generalizing first with
    | case1 text =>
      cases cut
      exact ⟨rfl, rfl⟩
    | case2 => cases cut
    | case3 offset letter rest fits ih =>
      rw [Option.map_eq_some_iff] at cut
      obtain ⟨⟨inner, after⟩, found, shape⟩ := cut
      cases shape
      obtain ⟨whole, total⟩ := ih found
      refine ⟨by rw [whole]; rfl, ?_⟩
      rw [width_cons, total]
      omega
    | case4 => cases cut
  · rintro ⟨whole, total⟩
    rw [whole, ← total]
    exact splitAt?_width positive first second

lemma isBoundary_iff {offset : Nat} : isBoundary size text offset = true ↔
      ∃ first second, text = first ++ second ∧ width size first = offset := by
  rw [isBoundary, Option.isSome_iff_exists]
  constructor
  · rintro ⟨⟨first, second⟩, cut⟩
    exact ⟨first, second, (splitAt?_eq_some positive).mp cut⟩
  · rintro ⟨first, second, split⟩
    exact ⟨(first, second), (splitAt?_eq_some positive).mpr split⟩

/-- Of two beginnings of a text the narrower one starts the other. -/
lemma prefix_of_width_le (left : first <+: text) (right : second <+: text)
    (narrower : width size first ≤ width size second) : first <+: second := by
  rcases List.prefix_or_prefix_of_prefix left right with starts | ends
  · exact starts
  · obtain ⟨rest, rfl⟩ := ends
    rw [width_append] at narrower
    have empty : rest = [] := (width_eq_zero positive).mp (by omega)
    rw [empty, List.append_nil]

end Positive

/-! ## Looking for a boundary -/

variable (size)

/-- Go down from an offset to a boundary, but not below `low`. -/
def boundaryBelow (text : List α) (low : Nat) : Nat → Nat
  | 0 => 0
  | offset + 1 =>
    if low < offset + 1 && !isBoundary size text (offset + 1) then
      boundaryBelow text low offset
    else
      offset + 1

/-- Go up from an offset inside the text to a boundary. -/
def boundaryAbove (text : List α) (offset : Nat) : Nat :=
  ((List.range' offset (width size text + 1 - offset)).find?
    (isBoundary size text)).getD (width size text)

lemma boundaryBelow_spec (text : List α) (low offset : Nat) :
    boundaryBelow size text low offset ≤ offset ∧
      (low ≤ offset → low ≤ boundaryBelow size text low offset) ∧
      (low < boundaryBelow size text low offset →
        isBoundary size text (boundaryBelow size text low offset) = true) := by
  induction offset with
  | zero => exact ⟨le_rfl, id, nofun⟩
  | succ offset ih =>
    rw [boundaryBelow]
    split
    next further =>
      simp only [Bool.and_eq_true, decide_eq_true_eq] at further
      exact ⟨Nat.le_succ_of_le ih.1, fun _ => ih.2.1 (Nat.le_of_lt_succ further.1), ih.2.2⟩
    next stopped => exact ⟨le_rfl, id, fun above => by simpa [above] using stopped⟩

variable {low offset : Nat}

variable {size}

section Positive
variable (positive : ∀ letter, 0 < size letter)
include positive

lemma boundaryAbove_eq_self {text : List α} (boundary : isBoundary size text offset = true) :
    boundaryAbove size text offset = offset := by
  obtain ⟨first, second, whole, total⟩ := (isBoundary_iff positive).mp boundary
  have lt : offset ≤ width size text := by
    rw [whole, width_append, total]
    exact Nat.le_add_right _ _
  obtain ⟨more, count⟩ : ∃ more, width size text + 1 - offset = more + 1 :=
    ⟨width size text - offset, by omega⟩
  rw [boundaryAbove, count, List.range'_succ, List.find?_cons_of_pos boundary]
  rfl

end Positive

/-! ## Occurrences -/

section Occurrences
variable [DecidableEq α] (size)

/-- Offsets of the occurrences of a pattern that do not overlap, from left to
right; `skip` letters of the last one are still to be passed. -/
def matchFrom (pattern : List α) : Nat → Nat → List α → List Nat
  | _, offset, [] => if pattern = [] then [offset] else []
  | skip + 1, offset, letter :: rest => matchFrom pattern skip (offset + size letter) rest
  | 0, offset, letter :: rest =>
    if pattern.isPrefixOf (letter :: rest) then
      offset :: matchFrom pattern (pattern.length - 1) (offset + size letter) rest
    else
      matchFrom pattern 0 (offset + size letter) rest

def matchIndices (pattern text : List α) : List Nat :=
  matchFrom size pattern 0 0 text

variable {pattern text : List α}

/-- Every offset found is one where the pattern starts. -/
lemma mem_matchFrom {skip start : Nat} (mem : offset ∈ matchFrom size pattern skip start text) :
    ∃ before after, text = before ++ after ∧ pattern <+: after ∧
      start + width size before = offset := by
  induction text generalizing skip start with
  | nil =>
    rw [matchFrom] at mem
    split at mem
    next empty =>
      rw [List.mem_singleton] at mem
      exact ⟨[], [], rfl, by simp [empty], by simp [mem]⟩
    next => cases mem
  | cons letter rest ih =>
    have shift : ∀ {skip}, offset ∈ matchFrom size pattern skip
        (start + size letter) rest → ∃ before after,
        letter :: rest = before ++ after ∧ pattern <+: after ∧
          start + width size before = offset := by
      intro skip later
      obtain ⟨before, after, whole, starts, total⟩ := ih later
      refine ⟨letter :: before, after, by rw [whole]; rfl, starts, ?_⟩
      rw [width_cons, ← add_assoc]
      exact total
    cases skip with
    | succ skip =>
      rw [matchFrom] at mem
      exact shift mem
    | zero =>
      rw [matchFrom] at mem
      split at mem
      next starts =>
        rcases List.mem_cons.mp mem with here | later
        · refine ⟨[], letter :: rest, rfl, ?_, by simp [here]⟩
          rwa [ List.isPrefixOf_iff_prefix] at starts
        · exact shift later
      next => exact shift mem

lemma mem_matchIndices (mem : offset ∈ matchIndices size pattern text) :
    ∃ before after, text = before ++ after ∧ pattern <+: after ∧ width size before = offset := by
  obtain ⟨before, after, whole, starts, total⟩ := mem_matchFrom size mem
  rw [zero_add] at total
  exact ⟨before, after, whole, starts, total⟩

end Occurrences

end

open List

section
variable {text marker : List α}

/-- No marker contains another one. -/
def Apart (markers : List (List α)) : Prop :=
  ∀ outer ∈ markers, ∀ inner ∈ markers, inner <:+: outer → inner = outer

instance [DecidableEq α] (markers : List (List α)) : Decidable (Apart markers) :=
  inferInstanceAs (Decidable (∀ outer ∈ markers, ∀ inner ∈ markers, _ → _))

lemma apart_singleton (marker : List α) : Apart [marker] := by
  intro outer outerMember inner innerMember _
  rw [mem_singleton.mp outerMember, mem_singleton.mp innerMember]

variable {first second : List (List α)}

lemma Apart.left (apart : Apart (first ++ second)) : Apart first :=
  fun outer outerMember inner innerMember =>
    apart outer (mem_append_left _ outerMember) inner (mem_append_left _ innerMember)

lemma Apart.right (apart : Apart (first ++ second)) : Apart second :=
  fun outer outerMember inner innerMember =>
    apart outer (mem_append_right _ outerMember) inner (mem_append_right _ innerMember)

/-- Of a text that runs on, a prefix either lies inside the first part or
covers it. -/
lemma prefix_append_cases {start first second : List α} (starts : start <+: first ++ second) :
    start <+: first ∨ (first <+: start ∧ first.length < start.length) := by
  rcases lt_or_ge first.length start.length with longer | shorter
  · exact .inr
      ⟨prefix_of_prefix_length_le (prefix_append first second) starts (le_of_lt longer), longer⟩
  · exact .inl (prefix_of_prefix_length_le starts (prefix_append first second) shorter)

/-- Two texts of which neither starts the other stay so when one goes on. -/
lemma not_prefix_append (off : ¬ marker <+: text) (away : ¬ text <+: marker) (tail : List α) :
    ¬ marker <+: text ++ tail ∧ ¬ text ++ tail <+: marker := by
  constructor
  · intro starts
    rcases prefix_append_cases starts with inside | ⟨covers, _⟩
    · exact off inside
    · exact away covers
  · intro covers
    exact away ((prefix_append _ _).trans covers)

end

/-- A text split around a marker. -/
structure Cut (α : Type*) where
  before : List α
  marker : List α
  after : List α
deriving Repr, DecidableEq

namespace Cut

/-- The same cut with more text in front. -/
def prepend (front : List α) (cut : Cut α) : Cut α :=
  { cut with before := front ++ cut.before }

/-- The same cut with more text at the end. -/
def extend (cut : Cut α) (tail : List α) : Cut α :=
  { cut with after := cut.after ++ tail }

lemma prepend_prepend (first second : List α) (cut : Cut α) :
    (cut.prepend second).prepend first = cut.prepend (first ++ second) := by
  simp [prepend]

end Cut

section
variable [DecidableEq α]

/-- The longest of the markers that the text starts with. -/
def longestPrefix (markers : List (List α)) (text : List α) : Option (List α) :=
  maxByKey? List.length (markers.filter fun marker => marker.isPrefixOf text)

variable {markers : List (List α)} {text marker : List α} {cut : Cut α}

lemma longestPrefix_eq_none : longestPrefix markers text = none ↔
      ∀ marker ∈ markers, ¬ marker <+: text := by
  simp [longestPrefix, maxByKey?_eq_none, filter_eq_nil_iff]

lemma longestPrefix_mem (found : longestPrefix markers text = some marker) :
    marker ∈ markers ∧ marker <+: text := by
  simpa using mem_filter.mp (maxByKey?_mem found)

lemma longestPrefix_ge {other : List α} (found : longestPrefix markers text = some marker)
    (mem : other ∈ markers) (starts : other <+: text) : other.length ≤ marker.length :=
  maxByKey?_ge found (mem_filter.mpr ⟨mem, by simpa using starts⟩)

lemma longestPrefix_eq_some (mem : marker ∈ markers) (starts : marker <+: text)
    (longest : ∀ other ∈ markers, other <+: text → other.length ≤ marker.length) :
    longestPrefix markers text = some marker := by
  cases here : longestPrefix markers text with
  | none => exact absurd starts (longestPrefix_eq_none.mp here marker mem)
  | some other =>
    obtain ⟨otherMember, begins⟩ := longestPrefix_mem here
    have bounded := longest other otherMember begins
    have covers := longestPrefix_ge here mem starts
    rw [(prefix_of_prefix_length_le begins starts bounded).eq_of_length
      (le_antisymm bounded covers)]

/-- Cut a text at the earliest marker, the longest one among those that start
there. -/
def cutFirst (markers : List (List α)) : List α → Option (Cut α)
  | [] => (longestPrefix markers []).map fun marker => ⟨[], marker, []⟩
  | head :: rest =>
    match longestPrefix markers (head :: rest) with
    | some marker => some ⟨[], marker, (head :: rest).drop marker.length⟩
    | none => (cutFirst markers rest).map (Cut.prepend [head])

lemma cutFirst_of_some (found : longestPrefix markers text = some marker) :
    cutFirst markers text = some ⟨[], marker, text.drop marker.length⟩ := by
  cases text with
  | nil | cons head rest => simp [cutFirst, found]

lemma cutFirst_of_none {head : α} {rest : List α}
    (missing : longestPrefix markers (head :: rest) = none) :
    cutFirst markers (head :: rest) = (cutFirst markers rest).map (Cut.prepend [head]) := by
  simp [cutFirst, missing]

/-- A stretch in which no marker starts is passed over. -/
lemma cutFirst_skip (front text : List α)
    (clear : ∀ left, left <:+ front → left ≠ [] → longestPrefix markers (left ++ text) = none) :
    cutFirst markers (front ++ text) = (cutFirst markers text).map (Cut.prepend front) := by
  induction front with
  | nil =>
    rw [nil_append]
    cases cutFirst markers text <;> rfl
  | cons head rest ih =>
    have here := clear (head :: rest) suffix_rfl (cons_ne_nil _ _)
    have later := ih fun left ends => clear left (ends.trans (suffix_cons _ _))
    rw [cons_append] at here ⊢
    rw [cutFirst_of_none here, later]
    cases cutFirst markers text <;> rfl

section
variable (found : cutFirst markers text = some cut)
include found

/-- What a cut says: the text is put together from its parts, the marker is
one of the markers, and no marker starts earlier. -/
lemma cutFirst_spec : text = cut.before ++ (cut.marker ++ cut.after) ∧
      longestPrefix markers (cut.marker ++ cut.after) = some cut.marker ∧
      ∀ left, left <:+ cut.before → left ≠ [] →
        longestPrefix markers (left ++ (cut.marker ++ cut.after)) = none := by
  induction text generalizing cut with
  | nil =>
    simp only [cutFirst, Option.map_eq_some_iff] at found
    obtain ⟨marker, here, rfl⟩ := found
    have empty : marker = [] := prefix_nil.mp (longestPrefix_mem here).2
    subst empty
    exact ⟨rfl, here, fun left ends filled => absurd (suffix_nil.mp ends) filled⟩
  | cons head rest ih =>
    cases here : longestPrefix markers (head :: rest) with
    | some marker =>
      rw [cutFirst_of_some here] at found
      cases found
      obtain ⟨after, whole⟩ := (longestPrefix_mem here).2
      have rebuilt : marker ++ (head :: rest).drop marker.length = head :: rest := by
        rw [← whole, drop_left]
      exact ⟨rebuilt.symm, by rw [rebuilt]; exact here,
        fun left ends filled => absurd (suffix_nil.mp ends) filled⟩
    | none =>
      rw [cutFirst_of_none here, Option.map_eq_some_iff] at found
      obtain ⟨inner, foundInner, rfl⟩ := found
      obtain ⟨rebuilt, marker, clear⟩ := ih foundInner
      refine ⟨?_, marker, ?_⟩
      · simp only [Cut.prepend, cons_append, nil_append]
        rw [← rebuilt]
      · intro left ends filled
        simp only [Cut.prepend, cons_append, nil_append] at ends ⊢
        rcases suffix_cons_iff.mp ends with rfl | ends
        · rwa [cons_append, ← rebuilt]
        · exact clear left ends filled

lemma cutFirst_marker_mem : cut.marker ∈ markers :=
  (longestPrefix_mem (cutFirst_spec found).2.1).1

lemma cutFirst_rebuild : text = cut.before ++ (cut.marker ++ cut.after) :=
  (cutFirst_spec found).1

end

/-- Without a cut no marker starts anywhere. -/
lemma cutFirst_eq_none {left : List α} (missing : cutFirst markers text = none)
    (ends : left <:+ text) : longestPrefix markers left = none := by
  induction text with
  | nil =>
    rw [suffix_nil.mp ends]
    simpa [cutFirst] using missing
  | cons head rest ih =>
    cases here : longestPrefix markers (head :: rest) with
    | some marker =>
      rw [cutFirst_of_some here] at missing
      cases missing
    | none =>
      rw [cutFirst_of_none here, Option.map_eq_none_iff] at missing
      rcases suffix_cons_iff.mp ends with rfl | ends
      · exact here
      · exact ih missing ends

variable {first second : List (List α)}

/-- What is found stays found however the text goes on. -/
lemma cutFirst_append (apart : Apart markers) (found : cutFirst markers text = some cut)
    (tail : List α) : cutFirst markers (text ++ tail) = some (cut.extend tail) := by
  obtain ⟨rebuilt, marker, clear⟩ := cutFirst_spec found
  have mem := cutFirst_marker_mem found
  have shape : text ++ tail = cut.before ++ (cut.marker ++ cut.after ++ tail) := by
    rw [rebuilt, append_assoc]
  -- a marker that reaches past the old text would contain the one found
  have swallow : ∀ (left other : List α), other ∈ markers →
      other <+: left ++ (cut.marker ++ cut.after) ++ tail →
      other <+: left ++ (cut.marker ++ cut.after) ∨
        (other = cut.marker ∧ left.length + cut.marker.length < other.length) := by
    intro left other otherMember starts
    rcases prefix_append_cases starts with inside | ⟨covers, longer⟩
    · exact .inl inside
    · right
      have contained : cut.marker <:+: other := by
        obtain ⟨extra, whole⟩ := covers
        exact ⟨left, cut.after ++ extra, by rw [← whole]; simp⟩
      refine ⟨(apart other otherMember cut.marker mem contained).symm, ?_⟩
      simp only [length_append] at longer
      omega
  have atMarker : longestPrefix markers (cut.marker ++ cut.after ++ tail) = some cut.marker := by
    apply longestPrefix_eq_some mem ((prefix_append _ _).trans (prefix_append _ _))
    intro other otherMember starts
    rcases swallow [] other otherMember starts with inside | ⟨same, _⟩
    · exact longestPrefix_ge marker otherMember inside
    · rw [same]
  rw [shape, cutFirst_skip, cutFirst_of_some atMarker]
  · simp [Cut.prepend, Cut.extend, append_assoc]
  · intro left ends filled
    rw [longestPrefix_eq_none]
    intro other otherMember starts
    rw [← append_assoc] at starts
    rcases swallow left other otherMember starts with inside | ⟨same, longer⟩
    · exact longestPrefix_eq_none.mp (clear left ends filled) other otherMember inside
    · rw [same] at longer
      omega

/-- A marker that is complete before any of the others is does not come
behind one of them. -/
lemma cutFirst_not_before {tail : List α} {other : Cut α}
    (foreign : ∀ inner ∈ first, ∀ outer ∈ second, ¬ inner <:+: outer)
    (found : cutFirst first text = some cut) (missing : cutFirst second text = none)
    (later : cutFirst second (text ++ tail) = some other) : ¬ other.before <+: cut.before := by
  rintro ⟨extra, joined⟩
  have mem := cutFirst_marker_mem later
  have whole : text = other.before ++ (extra ++ (cut.marker ++ cut.after)) := by
    rw [← append_assoc, joined]
    exact cutFirst_rebuild found
  have behind : other.marker ++ other.after = extra ++ (cut.marker ++ cut.after) ++ tail := by
    have rebuilt := cutFirst_rebuild later
    rw [whole, append_assoc] at rebuilt
    exact (append_cancel_left rebuilt).symm
  have starts : other.marker <+: extra ++ (cut.marker ++ cut.after) ++ tail := ⟨other.after, behind⟩
  rcases prefix_append_cases starts with inside | ⟨⟨rest, covers⟩, _⟩
  · exact longestPrefix_eq_none.mp
      (cutFirst_eq_none missing ⟨_, whole.symm⟩) other.marker mem inside
  · refine foreign cut.marker (cutFirst_marker_mem found) other.marker mem
      ⟨extra, cut.after ++ rest, ?_⟩
    rw [← covers]
    simp only [append_assoc]

/-- What is found does not depend on the text after it. -/
lemma cutFirst_shorten {before first second : List α}
    (found : cutFirst markers (before ++ (marker ++ (first ++ second))) =
      some ⟨before, marker, first ++ second⟩) :
    cutFirst markers (before ++ (marker ++ first)) = some ⟨before, marker, first⟩ := by
  obtain ⟨_, longest, clear⟩ := cutFirst_spec found
  dsimp only at longest clear
  have longer : ∀ text : List α,
      text ++ (marker ++ first) <+: text ++ (marker ++ (first ++ second)) := by
    intro text
    exact ⟨second, by simp⟩
  have atMarker : longestPrefix markers (marker ++ first) = some marker :=
    longestPrefix_eq_some (longestPrefix_mem longest).1 (prefix_append _ _)
      fun j mem begins => longestPrefix_ge longest mem (begins.trans (longer []))
  rw [cutFirst_skip, cutFirst_of_some atMarker]
  · simp [Cut.prepend]
  · intro left ends filled
    rw [longestPrefix_eq_none]
    intro j mem begins
    exact longestPrefix_eq_none.mp (clear left ends filled) j mem (begins.trans (longer left))

/-!
`partialSuffix` is the length of the longest tail of a text that is a proper
prefix of one of the markers.  It is what a reader of an unfinished text has
to hold back.
-/

/-- Length of the longest tail of `text`, longer than `keep` and at most
`size` long, that `marker` starts with; `keep` when there is none. -/
def partialTail (marker text : List α) (keep : Nat) : Nat → Nat
  | 0 => keep
  | size + 1 =>
    if keep < size + 1 then
      if (marker.take (size + 1)).isSuffixOf text then size + 1
      else partialTail marker text keep size
    else
      keep

def partialSuffix (markers : List (List α)) (text : List α) : Nat :=
  markers.foldl
    (fun keep marker => partialTail marker text keep (min (marker.length - 1) text.length))
    0

/-- A search down to `keep` finds the greatest length that will do. -/
lemma searchDown_eq {P : Nat → Prop} [DecidablePred P] {keep : Nat} {f : Nat → Nat}
    (stop : f 0 = keep)
    (step : ∀ n, f (n + 1) =
      if keep < n + 1 then if P (n + 1) then n + 1 else f n else keep) (n : Nat) :
    f n = max keep (Nat.findGreatest P n) := by
  induction n with
  | zero => rw [stop, Nat.findGreatest_zero, Nat.max_zero]
  | succ n ih =>
    have within := Nat.findGreatest_le (P := P) (n + 1)
    rw [Nat.findGreatest_succ] at within ⊢
    rw [step]
    split_ifs at within ⊢ with larger found <;> omega

/-- What a search over several items keeps: the greatest length that will do
for one of them, and `0` when there is none. -/
lemma foldl_searchDown_spec {P : β → Nat → Prop} [∀ item, DecidablePred (P item)] {bound : β → Nat}
    {step : Nat → β → Nat}
    (greatest : ∀ keep item, step keep item = max keep (Nat.findGreatest (P item) (bound item)))
    (items : List β) :
    (items.foldl step 0 = 0 ∨
      ∃ item ∈ items, items.foldl step 0 ≤ bound item ∧ P item (items.foldl step 0)) ∧
    ∀ item ∈ items, ∀ n ≤ bound item, P item n → n ≤ items.foldl step 0 := by
  have below : ∀ n keep, n ≤ items.foldl step keep ↔
      n ≤ keep ∨ ∃ item ∈ items, n ≤ Nat.findGreatest (P item) (bound item) := by
    intro n
    induction items with
    | nil => simp
    | cons item items ih => simp [ih, greatest, or_assoc]
  refine ⟨or_iff_not_imp_left.mpr fun found => ?_, fun item mem n within holds =>
    (below n 0).mpr (.inr ⟨item, mem, Nat.le_findGreatest within holds⟩)⟩
  obtain zero | ⟨item, mem, most⟩ := (below _ 0).mp le_rfl
  · exact absurd (Nat.le_zero.mp zero) found
  · have same := le_antisymm ((below _ 0).mpr (.inr ⟨item, mem, le_rfl⟩)) most
    exact ⟨item, mem, same ▸ Nat.findGreatest_le _, Nat.findGreatest_of_ne_zero same found⟩

section
variable (markers : List (List α)) (text : List α)

lemma partialSuffix_spec : (partialSuffix markers text = 0 ∨ ∃ marker ∈ markers,
      partialSuffix markers text ≤ min (marker.length - 1) text.length ∧
      (marker.take (partialSuffix markers text)).isSuffixOf text) ∧
    ∀ marker ∈ markers, ∀ length ≤ min (marker.length - 1) text.length,
      (marker.take length).isSuffixOf text → length ≤ partialSuffix markers text := by
  refine foldl_searchDown_spec (P := fun marker length => (take length marker).isSuffixOf text) ?_ _
  exact fun _ _ => searchDown_eq rfl (fun _ => rfl) _

variable {markers text} {marker tail : List α} {bound : Nat}

/-- Every tail that may still become a marker is held back. -/
lemma partialSuffix_max (mem : marker ∈ markers) (ends : tail <:+ text) (starts : tail <+: marker)
    (proper : tail.length < marker.length) : tail.length ≤ partialSuffix markers text := by
  have shorter := ends.length_le
  refine (partialSuffix_spec markers text).2 marker mem _ (by omega) ?_
  rwa [← prefix_iff_eq_take.mp starts, isSuffixOf_iff_suffix]

/-- What is held back can still become a marker. -/
lemma partialSuffix_le (least : ∀ marker ∈ markers, ∀ tail, tail <:+ text → tail <+: marker →
      tail.length < marker.length → tail.length ≤ bound) :
    partialSuffix markers text ≤ bound := by
  rcases Nat.eq_zero_or_pos (partialSuffix markers text) with zero | pos
  · rw [zero]
    exact Nat.zero_le _
  · obtain ⟨marker, mem, within, ends⟩ := (partialSuffix_spec markers text).1.resolve_left pos.ne'
    have size := length_take (i := partialSuffix markers text) (l := marker)
    have bounded := least marker mem _ (isSuffixOf_iff_suffix.mp ends) ( take_prefix _ _) (by omega)
    omega

variable (markers text)

lemma partialSuffix_le_length : partialSuffix markers text ≤ text.length :=
  partialSuffix_le fun _ _ _ ends _ _ => ends.length_le

/-- The part of an unfinished text that no marker can reach any more. -/
def settled : List α :=
  text.take (text.length - partialSuffix markers text)

/-- The part of an unfinished text that may still become a marker. -/
def held : List α :=
  text.drop (text.length - partialSuffix markers text)

end

section
variable (markers : List (List α)) (text : List α)

lemma settled_append_held : settled markers text ++ held markers text = text :=
  take_append_drop _ _

lemma length_held : (held markers text).length = partialSuffix markers text := by
  have limit := partialSuffix_le_length markers text
  rw [held, length_drop]
  omega

end

section
variable (markers : List (List α)) (text tail : List α)

/-- Nothing that has been settled is held back when more text follows. -/
lemma partialSuffix_append :
    partialSuffix markers (text ++ tail) = partialSuffix markers (held markers text ++ tail) := by
  have behind : held markers text ++ tail <:+ text ++ tail :=
    ⟨settled markers text, by rw [← append_assoc, settled_append_held]⟩
  apply le_antisymm
  · refine partialSuffix_le fun marker mem last ends starts proper =>
      partialSuffix_max mem ?_ starts proper
    -- the tail found lies behind what was settled
    rcases suffix_or_suffix_of_suffix ends behind with inside | ⟨extra, covers⟩
    · exact inside
    · have shorter : extra ++ held markers text <+: marker :=
        List.IsPrefix.trans ⟨tail, by rw [append_assoc, covers]⟩ starts
      have part : extra ++ held markers text <:+ text := by
        obtain ⟨front, whole⟩ := ends
        refine ⟨front, (append_left_inj tail).mp ?_⟩
        rw [← whole, ← covers]
        simp only [append_assoc]
      have size := congrArg List.length covers
      simp only [length_append] at size
      have bounded := partialSuffix_max mem part shorter (by rw [length_append]; omega)
      rw [length_append, length_held] at bounded
      have empty : extra = [] := eq_nil_of_length_eq_zero (by omega)
      rw [← covers, empty, nil_append]
  · exact partialSuffix_le fun marker mem last ends starts proper =>
      partialSuffix_max mem (ends.trans behind) starts proper

lemma held_append : held markers (text ++ tail) = held markers (held markers text ++ tail) := by
  have joined := settled_append_held markers text
  have same := partialSuffix_append markers text tail
  have within := partialSuffix_le_length markers (held markers text ++ tail)
  generalize held markers text = kept at joined same within ⊢
  rw [held, held, same, ← joined, append_assoc, length_append,
    Nat.add_sub_assoc within, drop_append]
  simp

lemma settled_append : settled markers (text ++ tail) =
      settled markers text ++ settled markers (held markers text ++ tail) := by
  apply (append_left_inj (held markers (text ++ tail))).mp
  rw [settled_append_held, held_append, append_assoc,
    settled_append_held, ← append_assoc, settled_append_held]

end

/-- A marker of one letter never lets anything be held back. -/
lemma held_letter (letter : α) (text : List α) : held [[letter]] text = [] := by
  apply eq_nil_of_length_eq_zero
  rw [length_held]
  refine Nat.le_zero.mp (partialSuffix_le fun marker mem tail _ _ proper => ?_)
  rw [mem_singleton.mp mem, length_singleton] at proper
  omega

/-- In a text without a marker, whatever follows, the first marker starts in
the part held back. -/
lemma cutFirst_hold (missing : cutFirst markers text = none) (tail : List α) :
    cutFirst markers (text ++ tail) = (cutFirst markers (held markers text ++ tail)).map
        (Cut.prepend (settled markers text)) := by
  have shape : text ++ tail = settled markers text ++ (held markers text ++ tail) := by
    rw [← append_assoc, settled_append_held]
  rw [shape]
  apply cutFirst_skip
  intro left ends filled
  rw [longestPrefix_eq_none]
  intro marker mem starts
  have whole : left ++ held markers text <:+ text := by
    obtain ⟨passed, split⟩ := ends
    exact ⟨passed, by rw [← append_assoc, split, settled_append_held]⟩
  rw [← append_assoc] at starts
  rcases prefix_append_cases starts with inside | ⟨covers, longer⟩
  · exact longestPrefix_eq_none.mp (cutFirst_eq_none missing whole) marker mem inside
  · -- a longer tail than the one held back would be a marker's beginning
    have bounded := partialSuffix_max mem whole covers longer
    have pos : 0 < left.length := length_pos_of_ne_nil filled
    rw [length_append, length_held] at bounded
    omega

end

variable [DecidableEq α]

/-- Whether a pattern occurs in a text. -/
def occurs (pattern text : List α) : Bool :=
  (cutFirst [pattern] text).isSome

variable {pattern text : List α}

lemma occurs_iff : occurs pattern text = true ↔ pattern <:+: text := by
  rw [occurs, Option.isSome_iff_exists]
  constructor
  · rintro ⟨cut, found⟩
    have marker := mem_singleton.mp (cutFirst_marker_mem found)
    rw [cutFirst_rebuild found, marker, ← append_assoc]
    exact infix_append cut.before pattern cut.after
  · rintro ⟨before, after, whole⟩
    cases search : cutFirst [pattern] text with
    | some cut => exact ⟨cut, rfl⟩
    | none =>
      have missing := cutFirst_eq_none search ⟨before, by rw [← append_assoc, whole]⟩
      exact absurd (prefix_append pattern after)
        (longestPrefix_eq_none.mp missing pattern (mem_singleton_self _))

lemma occurs_eq_false : occurs pattern text = false ↔ ¬ pattern <:+: text := by
  rw [← occurs_iff, Bool.not_eq_true]

/-- Pass over `skip` letters, then put `replacement` in the place of every
occurrence of `pattern`, from left to right. -/
def replaceFrom (pattern replacement : List α) : Nat → List α → List α
  | _, [] => []
  | skip + 1, _ :: rest => replaceFrom pattern replacement skip rest
  | 0, head :: rest =>
    if pattern.isPrefixOf (head :: rest) then
      replacement ++ replaceFrom pattern replacement (pattern.length - 1) rest
    else
      head :: replaceFrom pattern replacement 0 rest

/-- Every occurrence of a pattern replaced, from left to right; the pattern is
not empty. -/
def replaceAll (pattern replacement text : List α) : List α :=
  replaceFrom pattern replacement 0 text

lemma replaceFrom_skip (pattern replacement passed text : List α) :
    replaceFrom pattern replacement passed.length (passed ++ text) =
      replaceFrom pattern replacement 0 text := by
  induction passed with
  | nil => rfl
  | cons head rest ih =>
    rw [length_cons, cons_append, replaceFrom]
    exact ih

/-! ## Breaking a pattern up -/

section Marks
variable {α : Type*} {mark first : α} {places : Nat → Prop} {pattern text tail : List α}
  {start place : Nat}

open Classical in
/-- A text with a mark before the letters at some places; its first letter
stands at `start`. -/
noncomputable def marked (mark : α) (places : Nat → Prop) : Nat → List α → List α
  | _, [] => []
  | start, letter :: rest =>
    if places start then mark :: letter :: marked mark places (start + 1) rest
    else letter :: marked mark places (start + 1) rest

/-- An occurrence of the pattern with no mark behind its first letter. -/
def WholeAt (places : Nat → Prop) (pattern text : List α) (place : Nat) : Prop :=
  pattern <+: text.drop place ∧ ∀ i, place < i → i < place + pattern.length → ¬ places i

/-- The occurrences a replacement from left to right takes: those that no
occurrence taken before reaches into. -/
def Taken (places : Nat → Prop) (pattern text : List α) (place : Nat) : Prop :=
  WholeAt places pattern text place ∧ ∀ earlier, (_ : earlier < place) →
    Taken places pattern text earlier → earlier + pattern.length ≤ place

/-- The marks after every occurrence taken got one behind its first letter. -/
def brokenUp (text : List α) (places : Nat → Prop) (pattern : List α) (i : Nat) : Prop :=
  places i ∨ ∃ place, Taken places pattern text place ∧ i = place + 1

lemma marked_append (first second : List α) : marked mark places start (first ++ second) =
    marked mark places start first ++ marked mark places (start + first.length) second := by
  induction first generalizing start with
  | nil => rfl
  | cons letter rest ih =>
    have later : start + 1 + rest.length = start + (letter :: rest).length := by
      rw [length_cons]
      omega
    simp only [cons_append, marked, ih, later]
    split <;> rfl

lemma marked_of_free (free : ∀ i, start ≤ i → i < start + text.length → ¬ places i) :
    marked mark places start text = text := by
  induction text generalizing start with
  | nil => rfl
  | cons letter rest ih =>
    rw [length_cons] at free
    rw [marked, if_neg (free start le_rfl (by omega)),
      ih fun i above below => free i (by omega) (by omega)]

/-- Only a mark can make a marked text another one. -/
lemma marked_of_not_mem (unmarked : mark ∉ marked mark places start text) :
    marked mark places start text = text := by
  induction text generalizing start with
  | nil => rfl
  | cons letter rest ih =>
    rw [marked] at unmarked ⊢
    split_ifs at unmarked ⊢
    · exact absurd mem_cons_self unmarked
    · rw [ih fun mem => unmarked (mem_cons_of_mem _ mem)]

lemma filter_marked [DecidableEq α] :
    (marked mark places start text).filter (· ≠ mark) = text.filter (· ≠ mark) := by
  induction text generalizing start with
  | nil => rfl
  | cons letter rest ih =>
    rw [marked]
    split_ifs <;> simp only [filter_cons, ih, ne_eq, not_true_eq_false, decide_false,
      Bool.false_eq_true, if_false]

section
variable (markless : mark ∉ pattern)
include markless

lemma isPrefix_marked : pattern <+: marked mark places start text ↔
    pattern <+: text ∧ ∀ i, start ≤ i → i < start + pattern.length → ¬ places i := by
  induction pattern generalizing start text with
  | nil => exact iff_of_true nil_prefix ⟨ nil_prefix, fun i above below => by simp at below; omega⟩
  | cons head rest ih =>
    rw [mem_cons, not_or] at markless
    cases text with
    | nil => simp [marked]
    | cons letter text =>
      have split : (∀ i, start ≤ i → i < start + (head :: rest).length → ¬ places i) ↔
          ¬ places start ∧ ∀ i, start + 1 ≤ i → i < start + 1 + rest.length → ¬ places i := by
        rw [length_cons]
        grind
      rw [marked, split, cons_prefix_cons]
      split_ifs with here
      · simp [here, cons_prefix_cons, Ne.symm markless.1]
      · simp only [cons_prefix_cons, ih markless.2, here, not_false_eq_true, true_and, and_assoc]

/-- Where a pattern without the mark stands in a marked text. -/
lemma infix_marked (filled : pattern ≠ []) : pattern <:+: marked mark places 0 text ↔
    ∃ place, WholeAt places pattern text place := by
  obtain ⟨head, rest, rfl⟩ := exists_cons_of_ne_nil filled
  rw [mem_cons, not_or] at markless
  suffices general : ∀ text start, head :: rest <:+: marked mark places start text ↔
      ∃ place, head :: rest <+: text.drop place ∧
        ∀ i, start + place < i → i < start + place + (head :: rest).length → ¬ places i by
    simpa [WholeAt] using general text 0
  intro text
  induction text with
  | nil => simp [marked]
  | cons letter text ih =>
    intro start
    have here : head :: rest <+: letter :: marked mark places (start + 1) text ↔
        head :: rest <+: letter :: text ∧
          ∀ i, start < i → i < start + (head :: rest).length → ¬ places i := by
      rw [cons_prefix_cons, isPrefix_marked markless.2, cons_prefix_cons, and_assoc, length_cons]
      grind
    have inside : head :: rest <:+: marked mark places start (letter :: text) ↔
        head :: rest <:+: letter :: marked mark places (start + 1) text := by
      rw [marked]
      split_ifs
      · simp [@infix_cons_iff _ _ mark, cons_prefix_cons, Ne.symm markless.1]
      · rfl
    rw [inside, infix_cons_iff, here, ih]
    constructor
    · rintro (first | ⟨place, later⟩)
      · exact ⟨0, first⟩
      · exact ⟨place + 1, by simpa [add_assoc, add_comm 1] using later⟩
    · rintro ⟨_ | place, found⟩
      · exact .inl found
      · exact .inr ⟨place, by simpa [add_assoc, add_comm 1] using found⟩

end

lemma Taken.behind (taken : Taken places pattern text start)
    (later : Taken places pattern text place) (above : start < place) :
    start + pattern.length ≤ place := by
  rw [Taken] at later
  exact later.2 start above taken

/-- Of the letters of an occurrence taken, the second gets a mark. -/
lemma marked_brokenUp {second : α} {more after : List α}
    (taken : Taken places pattern text start) (size : pattern.length = more.length + 2) :
    marked mark (brokenUp text places pattern) (start + 1) (second :: more ++ after) =
      mark :: second :: more ++ marked mark (brokenUp text places pattern)
        (start + 1 + (second :: more).length) after := by
  have closed : ∀ i, start + 1 + 1 ≤ i → i < start + 1 + 1 + more.length →
      ¬ brokenUp text places pattern i := by
    rintro i above below (old | ⟨place, later, rfl⟩)
    · rw [Taken] at taken
      exact taken.1.2 i (by omega) (by omega) old
    · have := taken.behind later (by omega)
      omega
  rw [marked_append, marked, if_pos (.inr ⟨start, taken, rfl⟩), marked_of_free closed]

/-- A pass that replaces the occurrences it takes puts the marks in. -/
lemma replaceAll_marked [DecidableEq α] (markless : mark ∉ first :: tail) (long : tail ≠ []) :
    replaceAll (first :: tail) (first :: mark :: tail) (marked mark places 0 text) =
      marked mark (brokenUp text places (first :: tail)) 0 text := by
  obtain ⟨second, more, rfl⟩ := exists_cons_of_ne_nil long
  set pattern := first :: second :: more with shape
  have size : pattern.length = more.length + 2 := rfl
  -- from a place that no occurrence taken before reaches behind
  suffices general : ∀ n rest start, rest.length = n → text.drop start = rest →
      (∀ place < start, Taken places pattern text place → place + pattern.length ≤ start) →
      replaceFrom pattern (first :: mark :: second :: more) 0 (marked mark places start rest) =
        marked mark (brokenUp text places pattern) start rest from
    general _ text 0 rfl rfl nofun
  intro n
  induction n using Nat.strongRecOn with
  | ind n ih =>
    rintro (_ | ⟨letter, rest⟩) start counted behind free
    · rfl
    have next : text.drop (start + 1) = rest := by
      rw [← drop_drop, behind, drop_one, tail_cons]
    have whole : pattern <+: letter :: marked mark places (start + 1) rest ↔
        WholeAt places pattern text start := by
      rw [WholeAt, behind, shape, cons_prefix_cons,
        isPrefix_marked fun mem => markless (mem_cons_of_mem _ mem), cons_prefix_cons, and_assoc]
      simp only [length_cons]
      grind
    have letters : replaceFrom pattern (first :: mark :: second :: more) 0
        (letter :: marked mark places (start + 1) rest) =
        letter :: marked mark (brokenUp text places pattern) (start + 1) rest := by
      rw [replaceFrom]
      split_ifs with starts
      · rw [ isPrefixOf_iff_prefix, whole] at starts
        have taken : Taken places pattern text start := by
          rw [Taken]
          exact ⟨starts, free⟩
        obtain ⟨⟨after, split⟩, calm⟩ := starts
        rw [behind] at split
        obtain ⟨rfl, rfl⟩ : first = letter ∧ second :: more ++ after = rest := by
          simpa [shape] using split
        have gone : text.drop (start + 1 + (second :: more).length) = after := by
          rw [← drop_drop, next, drop_left]
        have past : start + 1 + (second :: more).length = start + pattern.length := by
          rw [size, length_cons]
          omega
        have rest := ih after.length (by simp at counted; omega) after _ rfl gone
          fun place below later => by
            rcases Nat.lt_or_ge start place with above | before
            · exact absurd (taken.behind later above) (by omega)
            · omega
        rw [marked_brokenUp taken size, ← rest, marked_append,
          @marked_of_free _ _ _ (second :: more) _ fun i above below => calm i above (by omega)]
        exact congrArg (first :: mark :: second :: more ++ ·) (replaceFrom_skip pattern
          (first :: mark :: second :: more) (second :: more) _)
      · rw [ih rest.length (by simp at counted; omega) rest (start + 1) rfl next]
        intro place below later
        have ends : place ≠ start := by
          rintro rfl
          rw [Taken] at later
          exact starts ( isPrefixOf_iff_prefix.mpr (whole.mpr later.1))
        exact Nat.le_succ_of_le (free place (by omega) later)
    have kept : brokenUp text places pattern start ↔ places start := by
      refine or_iff_left ?_
      rintro ⟨place, taken, rfl⟩
      have := free place (Nat.lt_succ_self _) taken
      omega
    rw [marked, marked]
    by_cases here : places start
    · rw [if_pos here, if_pos (kept.mpr here), replaceFrom, if_neg, letters]
      simp [shape, Ne.symm (not_or.mp (mem_cons.not.mp markless)).1]
    · rw [if_neg here, if_neg (kept.not.mpr here), letters]

end Marks
end Joshua.Foundation
