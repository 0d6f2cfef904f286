/-
Module: Joshua.Model.Text
Purpose: Text as the engine's readers see it: a list of characters, Unicode
  whitespace, trimming, and the searches of the standard library; JSON values
  with key order.
Trusted boundary: numbers are carried by their text; parsing and printing
  belong to the JSON library and are parameters where they are used
-/
import Joshua.Foundation.OrderedMap
import Joshua.Foundation.Text
import Mathlib.Data.List.DropRight

namespace Joshua
open Joshua.Foundation List

section

/-- A string, by its characters. -/
abbrev Text := List Char

instance lawfulBEqText : LawfulBEq Text :=
  inferInstance

/-- `char::is_whitespace`: the Unicode property `White_Space`. -/
def isWhitespace (c : Char) : Bool :=
  let code := c.toNat
  (9 ≤ code && code ≤ 13) || code == 0x20 || code == 0x85 ||
    code == 0xA0 || code == 0x1680 ||
    (0x2000 ≤ code && code ≤ 0x200A) || code == 0x2028 ||
    code == 0x2029 || code == 0x202F || code == 0x205F || code == 0x3000

section
variable (text : Text)

def trimStart : Text :=
  text.dropWhile isWhitespace

def trimEnd : Text :=
  text.rdropWhile isWhitespace

def trim : Text :=
  trimEnd (trimStart text)

/-- The whitespace `trimEnd` removes. -/
def trailingSpace : Text :=
  text.rtakeWhile isWhitespace

lemma trimEnd_append_trailingSpace : trimEnd text ++ trailingSpace text = text :=
  rdropWhile_append_rtakeWhile

end

/-! ## Trimming a text in two parts -/

lemma trimStart_append (first second : Text) : trimStart (first ++ second) =
      if trimStart first = [] then trimStart second
      else trimStart first ++ second := by
  rw [trimStart, dropWhile_append]
  split <;> simp_all [trimStart]

variable {first second : Text}

lemma trimStart_append_of_ne_nil (nonempty : trimStart first ≠ []) (second : Text) :
    trimStart (first ++ second) = trimStart first ++ second := by
  rw [trimStart_append, if_neg nonempty]

lemma trimEnd_append (first second : Text) : trimEnd (first ++ second) =
      if trimEnd second = [] then trimEnd first
      else first ++ trimEnd second := by
  simp only [trimEnd, List.rdropWhile, reverse_append,
    dropWhile_append, List.isEmpty_iff, reverse_eq_nil_iff]
  split
  · rfl
  · simp

lemma trailingSpace_append (first second : Text) : trailingSpace (first ++ second) =
      if trimEnd second = [] then trailingSpace first ++ second
      else trailingSpace second := by
  have whole := trimEnd_append_trailingSpace (first ++ second)
  rw [trimEnd_append] at whole
  split
  · rename_i blank
    rw [if_pos blank] at whole
    have front := trimEnd_append_trailingSpace first
    refine append_cancel_left (whole.trans ?_)
    rw [← List.append_assoc, front]
  · rename_i visible
    rw [if_neg visible, List.append_assoc] at whole
    refine append_cancel_left (append_cancel_left (whole.trans ?_))
    rw [trimEnd_append_trailingSpace]

variable {text : Text}

/-- A text that starts with a visible character keeps it. -/
lemma trimEnd_trimStart_eq_nil : trimEnd (trimStart text) = [] ↔ trimStart text = [] := by
  rw [trimEnd, rdropWhile_eq_nil_iff, ← dropWhile_eq_nil_iff, trimStart, dropWhile_idempotent]

lemma trailingSpace_of_blank (blank : trimEnd text = []) : trailingSpace text = text := by
  have whole := trimEnd_append_trailingSpace text
  rw [blank] at whole
  exact whole

lemma trim_eq_nil : trim text = [] ↔ ∀ c ∈ text, isWhitespace c = true := by
  rw [trim, trimEnd, rdropWhile_eq_nil_iff, trimStart]
  constructor
  · intro blank c member
    rw [← takeWhile_append_dropWhile (p := isWhitespace) (l := text), mem_append] at member
    rcases member with front | back
    · exact mem_takeWhile_imp front
    · exact blank c back
  · intro blank c member
    exact blank c ((dropWhile_sublist isWhitespace).subset member)

lemma trim_append_eq_nil : trim (first ++ second) = [] ↔ trim first = [] ∧ trim second = [] := by
  simp only [trim_eq_nil, mem_append, or_imp, forall_and]

/-! ## Searching -/

/-- The text before and after the first occurrence of a pattern. -/
def find (pattern text : Text) : Option (Text × Text) :=
  (cutFirst [pattern] text).map fun cut => (cut.before, cut.after)

section
variable {pattern text before after : Text} (found : find pattern text = some (before, after))
include found

lemma find_rebuild : text = before ++ (pattern ++ after) := by
  obtain ⟨cut, search, same⟩ := Option.map_eq_some_iff.mp found
  cases same
  rw [← mem_singleton.mp (cutFirst_marker_mem search)]
  exact cutFirst_rebuild search

lemma find_append (tail : Text) : find pattern (text ++ tail) = some (before, after ++ tail) := by
  obtain ⟨cut, search, same⟩ := Option.map_eq_some_iff.mp found
  cases same
  rw [find, cutFirst_append (apart_singleton pattern) search]
  rfl

end

/-- The text after the last occurrence of a pattern. -/
def afterLast (pattern text : Text) : Option Text :=
  (cutFirst [pattern.reverse] text.reverse).map fun cut => cut.before.reverse

/-! Offsets into a string count the bytes of its UTF-8 encoding.  A slice at
an offset that does not fall between two characters is a fault. -/

/-- `str::len`. -/
def byteLength (text : Text) : Nat :=
  width Char.utf8Size text

/-- `str::is_char_boundary`. -/
def isCharBoundary (text : Text) (offset : Nat) : Bool :=
  isBoundary Char.utf8Size text offset

/-- The slices before and after an offset. -/
def splitAt (text : Text) (offset : Nat) : Except Fault (Text × Text) :=
  match splitAt? Char.utf8Size offset text with
  | some parts => .ok parts
  | none => .error .range

@[simp]
lemma byteLength_append (first second : Text) :
    byteLength (first ++ second) = byteLength first + byteLength second :=
  width_append _ _ _

lemma byteLength_pos (nonempty : text ≠ []) : 0 < byteLength text :=
  width_pos Char.utf8Size_pos nonempty

/-- Of two beginnings of a text the one with fewer bytes starts the other. -/
lemma prefix_of_byteLength_le (left : first <+: text) (right : second <+: text)
    (shorter : byteLength first ≤ byteLength second) : first <+: second :=
  prefix_of_width_le Char.utf8Size_pos left right shorter

lemma splitAt_byteLength (first second : Text) :
    splitAt (first ++ second) (byteLength first) = .ok (first, second) := by
  rw [splitAt, byteLength, splitAt?_width Char.utf8Size_pos]

variable {offset : Nat}

lemma splitAt_eq_ok : splitAt text offset = .ok (first, second) ↔
      text = first ++ second ∧ byteLength first = offset := by
  rw [byteLength, ← splitAt?_eq_some Char.utf8Size_pos, splitAt]
  cases splitAt? Char.utf8Size offset text <;> simp

lemma isCharBoundary_iff : isCharBoundary text offset = true ↔
      ∃ first second, text = first ++ second ∧ byteLength first = offset :=
  isBoundary_iff Char.utf8Size_pos

lemma isCharBoundary_append (first second : Text) :
    isCharBoundary (first ++ second) (byteLength first) = true :=
  isCharBoundary_iff.mpr ⟨first, second, rfl, rfl⟩

lemma isCharBoundary_byteLength (text : Text) : isCharBoundary text (byteLength text) = true :=
  isCharBoundary_iff.mpr ⟨text, [], (append_nil text).symm, rfl⟩

/-- More text at the end moves no boundary. -/
lemma isCharBoundary_extend (tail : Text) (boundary : isCharBoundary text offset = true) :
    isCharBoundary (text ++ tail) offset = true := by
  obtain ⟨first, second, rfl, rfl⟩ := isCharBoundary_iff.mp boundary
  rw [List.append_assoc]
  exact isCharBoundary_append _ _

end

open Joshua.Foundation

/-- `serde_json::Value` with the `preserve_order` feature. -/
inductive Json
  | null
  | bool (value : Bool)
  | number (text : Text)
  | string (text : Text)
  | array (items : List Json)
  | object (fields : List (Text × Json))
deriving Repr

namespace Json

mutual

/-- Every key and every string value, at any depth. -/
def strings : Json → List Text
  | .string text => [text]
  | .array items => stringsOfItems items
  | .object fields => stringsOfFields fields
  | _ => []

def stringsOfItems : List Json → List Text
  | [] => []
  | item :: rest => strings item ++ stringsOfItems rest

def stringsOfFields : List (Text × Json) → List Text
  | [] => []
  | (key, value) :: rest => key :: strings value ++ stringsOfFields rest

end

mutual

/-- How deep arrays and objects are nested. -/
def depth : Json → Nat
  | .array items => depthOfItems items + 1
  | .object fields => depthOfFields fields + 1
  | _ => 0

def depthOfItems : List Json → Nat
  | [] => 0
  | item :: rest => max (depth item) (depthOfItems rest)

def depthOfFields : List (Text × Json) → Nat
  | [] => 0
  | (_, value) :: rest => max (depth value) (depthOfFields rest)

end

mutual

/-- No object has a key twice. -/
def WellFormed : Json → Prop
  | .array items => WellFormedItems items
  | .object fields => (OrderedMap.keys fields).Nodup ∧ WellFormedFields fields
  | _ => True

def WellFormedItems : List Json → Prop
  | [] => True
  | item :: rest => WellFormed item ∧ WellFormedItems rest

def WellFormedFields : List (Text × Json) → Prop
  | [] => True
  | (_, value) :: rest => WellFormed value ∧ WellFormedFields rest

end

variable {fields : List (Text × Json)} {items : List Json}

lemma mem_stringsOfItems {text : Text} :
    text ∈ stringsOfItems items ↔ ∃ item ∈ items, text ∈ item.strings := by
  induction items with
  | nil => simp [stringsOfItems]
  | cons item rest ih => simp [stringsOfItems, ih]

lemma mem_stringsOfFields {text : Text} : text ∈ stringsOfFields fields ↔
      ∃ field ∈ fields, text = field.1 ∨ text ∈ field.2.strings := by
  induction fields with
  | nil => simp [stringsOfFields]
  | cons field rest ih => simp [stringsOfFields, ih, or_assoc]

lemma depth_lt_array {item : Json} (member : item ∈ items) :
    item.depth < (Json.array items).depth := by
  rw [depth, Nat.lt_succ_iff]
  induction items with
  | nil => cases member
  | cons head rest ih =>
    rw [depthOfItems]
    rcases List.mem_cons.mp member with rfl | later
    · exact Nat.le_max_left _ _
    · exact (ih later).trans (Nat.le_max_right _ _)

lemma depth_lt_object {field : Text × Json} (member : field ∈ fields) :
    field.2.depth < (Json.object fields).depth := by
  rw [depth, Nat.lt_succ_iff]
  induction fields with
  | nil => cases member
  | cons head rest ih =>
    rw [depthOfFields]
    rcases List.mem_cons.mp member with rfl | later
    · exact Nat.le_max_left _ _
    · exact (ih later).trans (Nat.le_max_right _ _)

lemma wellFormed_array : (Json.array items).WellFormed ↔ ∀ item ∈ items, item.WellFormed := by
  rw [WellFormed]
  induction items with
  | nil => simp [WellFormedItems]
  | cons item rest ih => simp [WellFormedItems, ih]

lemma wellFormed_object : (Json.object fields).WellFormed ↔ (OrderedMap.keys fields).Nodup ∧
        ∀ field ∈ fields, field.2.WellFormed := by
  have values : WellFormedFields fields ↔ ∀ field ∈ fields, field.2.WellFormed := by
    induction fields with
    | nil => simp [WellFormedFields]
    | cons field rest ih => simp [WellFormedFields, ih]
  rw [WellFormed, values]

/-- `Value::get` with a string index: nothing unless the value is an
object. -/
def get (key : Text) : Json → Option Json
  | .object fields => OrderedMap.get key fields
  | _ => none

lemma WellFormed.of_get {value inner : Json} {key : Text} (wellFormed : value.WellFormed)
    (found : value.get key = some inner) : inner.WellFormed := by
  cases value with
  | object fields => exact (wellFormed_object.mp wellFormed).2 _ (OrderedMap.mem_of_get found)
  | array _ | string _ | null | bool _ | number _ => cases found

end Json

end Joshua
