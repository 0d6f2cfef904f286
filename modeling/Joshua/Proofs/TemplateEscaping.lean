/-
Module: Joshua.Proofs.TemplateEscaping
Purpose: What escaping leaves of a text and of a JSON value: no control-token
  string, everything else where it was.
Trusted boundary: none
-/
import Joshua.Model.Template

namespace Joshua
open Joshua.Foundation List
open OrderedMap (get_eq_some insert keys keys_insert_nodup mem_insert mem_keys mem_of_get)

/-- No control-token string occurs in the text. -/
def CleanText (specials : List Text) (text : Text) : Prop :=
  ∀ special ∈ specials, ¬ special <:+: text

instance (specials : List Text) (text : Text) : Decidable (CleanText specials text) :=
  inferInstanceAs (Decidable (∀ special ∈ specials, ¬ special <:+: text))

/-- No control-token string occurs in a key or a string value. -/
def Json.Clean (specials : List Text) (value : Json) : Prop :=
  ∀ text ∈ value.strings, CleanText specials text

/-- Control-token strings that can be told apart in any text: at least two
characters, no mark inside, and an occurrence of one never starts inside an
occurrence of another or of itself. -/
structure ControlStrings (specials : List Text) : Prop where
  long : ∀ special ∈ specials, 2 ≤ special.length
  markless : ∀ special ∈ specials, escapeMark ∉ special
  apart : ∀ special ∈ specials, ∀ other ∈ specials, ∀ passed left,
    special = passed ++ left → left ≠ [] →
    (other <+: left ∨ left <+: other) → passed = [] ∧ special = other

variable {specials : List Text} {value : Json}

/-- The condition with the splits of a string listed, which a machine can
check. -/
lemma controlStrings_iff : ControlStrings specials ↔
      (∀ special ∈ specials, 2 ≤ special.length ∧ escapeMark ∉ special) ∧
        ∀ special ∈ specials, ∀ other ∈ specials, ∀ left ∈ special.tails, left ≠ [] →
            (other <+: left ∨ left <+: other) →
            left = special ∧ special = other := by
  constructor
  · intro control
    refine ⟨fun special mem => ⟨control.long special mem, control.markless special mem⟩, ?_⟩
    intro special mem other otherMember left tail filled overlap
    obtain ⟨passed, split⟩ := (mem_tails _ _).mp tail
    obtain ⟨empty, same⟩ := control.apart special mem other otherMember
      passed left split.symm filled overlap
    rw [empty, nil_append] at split
    exact ⟨split, same⟩
  · rintro ⟨plain, apart⟩
    refine ⟨fun special mem => (plain special mem).1, fun special mem => (plain special mem).2, ?_⟩
    intro special mem other otherMember passed left split filled overlap
    obtain ⟨whole, same⟩ := apart special mem other otherMember left
      ((mem_tails _ _).mpr ⟨passed, split.symm⟩) filled overlap
    rw [whole] at split
    exact ⟨self_eq_append_left.mp split, same⟩

instance (specials : List Text) : Decidable (ControlStrings specials) :=
  decidable_of_iff _ controlStrings_iff.symm

/-! ## Texts -/

variable {text special : Text}

/-- Where the marks stand after the passes for all strings. -/
def marks (specials : List Text) (text : Text) : Nat → Prop :=
  specials.foldl (brokenUp text) fun _ => False

/-- A pass for one string puts its marks in. -/
lemma escapeSpecial_marked {places : Nat → Prop} (long : 2 ≤ special.length)
    (markless : escapeMark ∉ special) :
    escapeSpecial (marked escapeMark places 0 text) special =
      marked escapeMark (brokenUp text places special) 0 text := by
  match special with
  | first :: second :: tail =>
    rw [escapeSpecial]
    split_ifs with inside
    · exact replaceAll_marked markless (cons_ne_nil _ _)
    · have same : brokenUp text places (first :: second :: tail) = places := by
        rw [occurs_iff, infix_marked markless (cons_ne_nil _ _), not_exists] at inside
        funext i
        refine propext (or_iff_left ?_)
        rintro ⟨place, taken, _⟩
        rw [Taken] at taken
        exact inside place taken.1
      rw [same]

section Plain
variable (long : ∀ special ∈ specials, 2 ≤ special.length)
  (markless : ∀ special ∈ specials, escapeMark ∉ special)
include long markless

/-- `escape_specials` puts marks into the text and does nothing else. -/
lemma escapeSpecials_marked (text : Text) :
    escapeSpecials specials text = marked escapeMark (marks specials text) 0 text := by
  have plain : marked escapeMark (fun _ => False) 0 text = text := marked_of_free (by simp)
  have passes : ∀ places, specials.foldl escapeSpecial (marked escapeMark places 0 text) =
      marked escapeMark (specials.foldl (brokenUp text) places) 0 text := by
    induction specials with
    | nil => exact fun _ => rfl
    | cons special rest ih =>
      intro places
      rw [forall_mem_cons] at long markless
      rw [foldl_cons, escapeSpecial_marked long.1 markless.1, ih long.2 markless.2, foldl_cons]
  rw [marks, ← passes, plain, escapeSpecials]
  split_ifs with found
  · rfl
  · simp only [any_eq_true, not_exists, not_and] at found
    clear passes long markless
    induction specials with
    | nil => rfl
    | cons special rest ih =>
      rw [forall_mem_cons] at found
      have same : escapeSpecial text special = text := by
        cases special <;> simp [escapeSpecial, found.1]
      rw [foldl_cons, same]
      exact ih found.2

lemma cleanText_escapeSpecials_iff : CleanText specials (escapeSpecials specials text) ↔
    ∀ special ∈ specials, ∀ place, ¬ WholeAt (marks specials text) special text place := by
  rw [escapeSpecials_marked long markless]
  refine forall₂_congr fun special mem => ?_
  have filled : special ≠ [] := length_pos_iff.mp (Nat.zero_lt_of_lt (long special mem))
  rw [infix_marked (markless special mem) filled, not_exists]

end Plain

section Control
variable (control : ControlStrings specials)
include control

lemma ControlStrings.ne_nil (mem : special ∈ specials) : special ≠ [] := by
  intro empty
  have long := control.long special mem
  rw [empty] at long
  exact absurd long (by decide)

/-- Every occurrence of a string is taken or broken up before. -/
lemma ControlStrings.not_whole (mem : special ∈ specials) (place : Nat) :
    ¬ WholeAt (marks specials text) special text place := by
  have grows : ∀ (list : List Text) {places : Nat → Prop} {i : Nat}, places i →
      list.foldl (brokenUp text) places i := by
    intro list
    induction list with
    | nil => exact id
    | cons special rest ih => exact fun old => ih (.inl old)
  have long := control.long special mem
  have apart := control.apart special mem special mem
  rw [marks]
  generalize (fun _ => False : Nat → Prop) = places
  clear control
  induction specials generalizing places with
  | nil => cases mem
  | cons head rest ih =>
    rcases mem_cons.mp mem with rfl | later
    · rintro ⟨found, whole⟩
      refine whole (place + 1) (by omega) (by omega) (grows rest (.inr ⟨place, ?_, rfl⟩))
      rw [Taken]
      refine ⟨⟨found, fun i above below old => whole i above below (grows rest (.inl old))⟩, ?_⟩
      intro earlier before taken
      rw [Taken] at taken
      by_contra overlap
      -- an end of the string would be a beginning of it
      have part := taken.1.1.drop (place - earlier)
      rw [drop_drop, Nat.add_sub_cancel' before.le] at part
      have starts := prefix_of_prefix_length_le part found (by simp)
      have nothing := (apart _ _ (take_append_drop (place - earlier) special).symm
        (by simp; omega) (.inr starts)).1
      have empty := congrArg length nothing
      rw [length_take, length_nil] at empty
      omega
    · exact ih later _

/-- An escaped text has no control-token string. -/
lemma escapeSpecials_clean (text : Text) : CleanText specials (escapeSpecials specials text) :=
  (cleanText_escapeSpecials_iff control.long control.markless).mpr fun _ mem _ =>
    control.not_whole mem _

/-- More marks at the end make no control-token string. -/
lemma CleanText.append_marks (clean : CleanText specials text) (count : Nat) :
    CleanText specials (text ++ List.replicate count escapeMark) := by
  intro special mem inside
  induction count with
  | zero => exact clean special mem (by simpa using inside)
  | succ count ih =>
    rw [replicate_succ', ← append_assoc, infix_concat_iff] at inside
    rcases inside with atEnd | earlier
    · have marked : escapeMark ∈ special := by
        rcases suffix_concat_iff.mp atEnd with empty | ⟨front, shape, _⟩
        · exact absurd empty (control.ne_nil mem)
        · rw [shape]
          simp
      exact control.markless special mem marked
    · exact ih earlier

end Control

lemma escapeSpecials_of_clean (clean : CleanText specials text) :
    escapeSpecials specials text = text := by
  rw [escapeSpecials, if_neg]
  simp only [any_eq_true, not_exists, not_and, Bool.not_eq_true, occurs_eq_false]
  exact clean

/-- A text that had a control-token string carries the mark. -/
lemma mark_mem_escapeSpecials (control : ControlStrings specials)
    (dirty : ∃ special ∈ specials, special <:+: text) :
    escapeMark ∈ escapeSpecials specials text := by
  obtain ⟨special, mem, inside⟩ := dirty
  by_contra unmarked
  have clean := escapeSpecials_clean control text
  rw [escapeSpecials_marked control.long control.markless] at unmarked clean
  rw [marked_of_not_mem unmarked] at clean
  exact clean special mem inside

/-- For all control-token strings and every text without a mark: no string is
left in the escaped text, and without the marks it is the text, exactly if
every occurrence of a string is broken up by an occurrence that a pass takes:
the second letter of that one lies behind the first of this. -/
theorem escapeSpecials_breaks_iff (long : ∀ special ∈ specials, 2 ≤ special.length)
    (markless : ∀ special ∈ specials, escapeMark ∉ special) (unmarked : escapeMark ∉ text) :
    (CleanText specials (escapeSpecials specials text) ∧
        (escapeSpecials specials text).filter (· ≠ escapeMark) = text) ↔
      ∀ special ∈ specials, ∀ place, ¬ WholeAt (marks specials text) special text place := by
  have plain : text.filter (· ≠ escapeMark) = text := by
    rw [filter_eq_self]
    intro letter mem
    exact decide_eq_true fun same => unmarked (same ▸ mem)
  rw [cleanText_escapeSpecials_iff long markless, escapeSpecials_marked long markless,
    filter_marked, plain]
  exact and_iff_left rfl

/-- The second of two overlapping occurrences is not broken up. -/
theorem overlapping_token_survives :
    "aa".toList <:+: escapeSpecials ["aa".toList] "aaa".toList := by
  decide

/-- A string may overlap itself and a shorter one may break up what it
leaves. -/
theorem escapeSpecials_breaks_iff_of_two : "aba".toList <+: "ababa".toList.drop 2 ∧
      ¬ WholeAt (marks ["aba".toList, "ba".toList] "ababa".toList) "aba".toList "ababa".toList 2 :=
  ⟨by decide, (escapeSpecials_breaks_iff (by decide) (by decide) (by decide)).mp (by decide) _
    mem_cons_self 2⟩

/-! ## Objects -/

/-- The key an escaped object has for a key it had. -/
def Renamed (specials : List Text) (old new : Text) : Prop :=
  CleanText specials old ∧ new = old ∨ (∃ special ∈ specials, special <:+: old) ∧ ∃ count, new =
        escapeSpecials specials old ++ List.replicate count escapeMark

lemma Renamed.clean {specials : List Text} (control : ControlStrings specials) {old new : Text}
    (renamed : Renamed specials old new) : CleanText specials new := by
  rcases renamed with ⟨clean, rfl⟩ | ⟨_, count, rfl⟩
  · exact clean
  · exact (escapeSpecials_clean control old).append_marks control count

/-- An object while its keys are escaped: the keys in `rest` still have their
entries, every other entry is an escaped one, and no clean key is lost. -/
structure Escaping (specials : List Text) (escape : Json → Json) (fields : List (Text × Json))
    (rest : List Text) (current : List (Text × Json)) : Prop where
  unique : (keys current).Nodup
  present : ∀ key ∈ rest, key ∈ keys current
  waiting : ∀ key ∈ rest, ∀ value, (key, value) ∈ current → (key, value) ∈ fields
  done : ∀ key value, (key, value) ∈ current → key ∉ rest →
    ∃ old oldValue, (old, oldValue) ∈ fields ∧ value = escape oldValue ∧ Renamed specials old key
  kept : ∀ key value, (key, value) ∈ fields → key ∉ rest →
    CleanText specials key → (key, escape value) ∈ current

namespace Escaping

variable {specials : List Text} {escape : Json → Json} {fields current : List (Text × Json)}
  {key : Text} {rest : List Text}

lemma start (unique : (keys fields).Nodup) :
    Escaping specials escape fields (keys fields) fields where
  unique := unique
  present := fun _ mem => mem
  waiting := fun _ _ _ mem => mem
  done := fun _ value mem away => absurd (mem_keys.mpr ⟨value, mem⟩) away
  kept := fun _ value mem away => absurd (mem_keys.mpr ⟨value, mem⟩) away

section
variable (state : Escaping specials escape fields (key :: rest) current)
include state

/-- One entry taken out and put back under the key it gets. -/
private lemma replace {after : List (Text × Json)} {new : Text} (original : (keys fields).Nodup)
    (fresh : key ∉ rest) (mem : (key, value) ∈ current) (renamed : Renamed specials key new)
    (unused : new ∉ rest) (unique : (keys after).Nodup)
    (entries : ∀ entry, entry ∈ after ↔
      entry = (new, escape value) ∨ entry ∈ current ∧ entry.1 ≠ key) :
    Escaping specials escape fields rest after := by
  have known := state.waiting key mem_cons_self value mem
  constructor
  case unique => exact unique
  case present =>
    intro j inside
    obtain ⟨other, found⟩ := mem_keys.mp (state.present j (mem_cons_of_mem _ inside))
    refine mem_keys.mpr ⟨other, (entries _).mpr (.inr ⟨found, ?_⟩)⟩
    rintro rfl
    exact fresh inside
  case waiting =>
    intro j inside other found
    rcases (entries _).mp found with here | ⟨old, _⟩
    · cases here
      exact absurd inside unused
    · exact state.waiting j (mem_cons_of_mem _ inside) _ old
  case done =>
    intro j other found away
    rcases (entries _).mp found with here | ⟨old, different⟩
    · cases here
      exact ⟨key, value, known, rfl, renamed⟩
    · exact state.done j other old fun inside => (mem_cons.mp inside).elim different away
  case kept =>
    intro j other found away clean
    refine (entries _).mpr ?_
    by_cases here : j = key
    · subst here
      rw [OrderedMap.value_unique original found known]
      rcases renamed with ⟨_, rfl⟩ | ⟨⟨special, among, inside⟩, _⟩
      · exact .inl rfl
      · exact absurd inside (clean special among)
    · exact .inr ⟨state.kept j other found
        (fun inside => (mem_cons.mp inside).elim here away) clean, here⟩

/-- One round of the loop over the keys. -/
lemma step (original : (keys fields).Nodup) (fresh : key ∉ rest) :
    Escaping specials escape fields rest (escapeField specials escape current key) := by
  rcases @escapeField_cases specials escape current key with
    ⟨missing, _⟩ | ⟨value, clean, mem, same⟩ |
    ⟨value, left, count, dirty, split, unused, same⟩
  · exact absurd (state.present key mem_cons_self) missing
  · rw [same]
    exact state.replace original fresh mem (.inl ⟨clean, rfl⟩) fresh
      (keys_insert_nodup state.unique) fun _ => mem_insert
  · rw [same]
    obtain ⟨gone, unique⟩ := OrderedMap.keys_nodup_of_perm split state.unique
    have among : ∀ entry, entry ∈ left ↔ entry ∈ current ∧ entry.1 ≠ key := by
      intro entry
      rw [← split.mem_iff, mem_cons]
      constructor
      · intro found
        exact ⟨.inr found, fun same => gone (same ▸ mem_keys.mpr ⟨entry.2, found⟩)⟩
      · rintro ⟨rfl | found, different⟩
        · exact absurd rfl different
        · exact found
    refine state.replace original fresh (split.mem_iff.mp mem_cons_self)
      (.inr ⟨dirty, count, rfl⟩) ?_ (keys_insert_nodup unique) ?_
    · intro inside
      obtain ⟨other, found⟩ := mem_keys.mp (state.present _ (mem_cons_of_mem _ inside))
      refine unused (mem_keys.mpr ⟨other, (among _).mpr ⟨found, ?_⟩⟩)
      exact fun same => fresh (same ▸ inside)
    · intro entry
      rw [mem_insert, ← among]
      refine or_congr_right ⟨And.left, fun found => ⟨found, ?_⟩⟩
      exact fun same => unused (same ▸ mem_keys.mpr ⟨entry.2, found⟩)

end

/-- The whole loop. -/
lemma run (state : Escaping specials escape fields rest current)
    (original : (keys fields).Nodup) (unique : rest.Nodup) :
    Escaping specials escape fields [] (rest.foldl (escapeField specials escape) current) := by
  induction rest generalizing current with
  | nil => exact state
  | cons key rest ih =>
    rw [nodup_cons] at unique
    exact ih (state.step original unique.1) unique.2

/-- The loop only looks at the values the object had. -/
lemma run_congr {other : Json → Json} (state : Escaping specials escape fields rest current)
    (original : (keys fields).Nodup) (unique : rest.Nodup)
    (agree : ∀ field ∈ fields, escape field.2 = other field.2) :
    rest.foldl (escapeField specials escape) current =
      rest.foldl (escapeField specials other) current := by
  induction rest generalizing current with
  | nil => rfl
  | cons key rest ih =>
    rw [nodup_cons] at unique
    have same : ∀ value, (key, value) ∈ current → escape value = other value := fun value mem =>
      agree _ (state.waiting key mem_cons_self value mem)
    have first : escapeField specials escape current key =
        escapeField specials other current key := by
      rw [escapeField, escapeField]
      split
      · split
        next value left removed =>
          rw [same value ((OrderedMap.remove_perm removed).mem_iff.mp mem_cons_self)]
        next => rfl
      · split
        next value found => rw [same value (mem_of_get found)]
        next => rfl
    rw [foldl_cons, foldl_cons, ← first]
    exact ih (state.step original unique.1) unique.2

end Escaping

/-! ## Values -/

/-- Induction over the values inside a value. -/
lemma Json.nestedInduction {motive : Json → Prop}
    (leaf : ∀ value : Json, value.depth = 0 → motive value)
    (array : ∀ items, (∀ item ∈ items, motive item) → motive (.array items))
    (object : ∀ fields, (∀ field ∈ fields, motive field.2) → motive (.object fields))
    (value : Json) : motive value := by
  induction size : value.depth using Nat.strongRecOn generalizing value with
  | ind size ih =>
    subst size
    cases value with
    | array items =>
      exact array items fun item mem => ih item.depth (Json.depth_lt_array mem) item rfl
    | object fields =>
      exact object fields fun field mem => ih field.2.depth (Json.depth_lt_object mem) field.2 rfl
    | null | bool value | number text | string text => exact leaf _ rfl

variable {items : List Json}

lemma Json.clean_array : (Json.array items).Clean specials ↔
      ∀ item ∈ items, item.Clean specials := by
  simp only [Json.Clean, Json.strings, Json.mem_stringsOfItems]
  constructor
  · intro clean item mem text inside
    exact clean text ⟨item, mem, inside⟩
  · rintro clean text ⟨item, mem, inside⟩
    exact clean item mem text inside

variable {fields : List (Text × Json)}

lemma Json.clean_object : (Json.object fields).Clean specials ↔
      ∀ field ∈ fields, CleanText specials field.1 ∧ field.2.Clean specials := by
  simp only [Json.Clean, Json.strings, Json.mem_stringsOfFields]
  constructor
  · intro clean field mem
    exact ⟨clean field.1 ⟨field, mem, .inl rfl⟩,
      fun text inside => clean text ⟨field, mem, .inr inside⟩⟩
  · rintro clean text ⟨field, mem, choice⟩
    rcases choice with rfl | inside
    · exact (clean field mem).1
    · exact (clean field mem).2 text inside

lemma jsonContains_iff (value : Json) : jsonContains special value = true ↔
      ∃ text ∈ value.strings, special <:+: text := by
  induction value using Json.nestedInduction with
  | leaf value flat =>
    cases value <;> simp [Json.depth, Json.strings, jsonContains, occurs_iff] at flat ⊢
  | array items ih =>
    rw [jsonContains, Json.strings]
    induction items with
    | nil => simp [itemsContain, Json.stringsOfItems]
    | cons item rest listHypothesis =>
      have here := ih item mem_cons_self
      have later := listHypothesis fun j mem => ih j (mem_cons_of_mem _ mem)
      simp [itemsContain, Json.stringsOfItems, here, later, or_and_right, exists_or]
  | object fields ih =>
    rw [jsonContains, Json.strings]
    induction fields with
    | nil => simp [fieldsContain, Json.stringsOfFields]
    | cons field rest listHypothesis =>
      have here := ih field mem_cons_self
      have later := listHypothesis fun j mem => ih j (mem_cons_of_mem _ mem)
      simp [fieldsContain, Json.stringsOfFields, here, later, occurs_iff,
        or_and_right, exists_or, or_assoc]

/-- How far down the recursion may go makes no difference once it is far
enough. -/
lemma escapeJsonWithin_congr (specials : List Text) (wellFormed : value.WellFormed)
    {first second : Nat} (enough : value.depth < first) (enough' : value.depth < second) :
    escapeJsonWithin specials first value = escapeJsonWithin specials second value := by
  induction value using Json.nestedInduction generalizing first second with
  | leaf value flat =>
    obtain ⟨first, rfl⟩ := Nat.exists_eq_add_of_lt enough
    obtain ⟨second, rfl⟩ := Nat.exists_eq_add_of_lt enough'
    cases value <;> simp [Json.depth, escapeJsonWithin] at flat ⊢
  | array items ih =>
    obtain ⟨first, rfl⟩ : ∃ less, first = less + 1 := ⟨first - 1, by omega⟩
    obtain ⟨second, rfl⟩ : ∃ less, second = less + 1 := ⟨second - 1, by omega⟩
    rw [escapeJsonWithin, escapeJsonWithin]
    congr 1
    apply map_congr_left
    intro item mem
    have lower := Json.depth_lt_array mem
    exact ih item mem (Json.wellFormed_array.mp wellFormed item mem) (by omega) (by omega)
  | object fields ih =>
    obtain ⟨first, rfl⟩ : ∃ less, first = less + 1 := ⟨first - 1, by omega⟩
    obtain ⟨second, rfl⟩ : ∃ less, second = less + 1 := ⟨second - 1, by omega⟩
    obtain ⟨unique, values⟩ := Json.wellFormed_object.mp wellFormed
    rw [escapeJsonWithin, escapeJsonWithin]
    congr 1
    apply (Escaping.start unique).run_congr unique unique
    intro field mem
    have lower := Json.depth_lt_object mem
    exact ih field mem (values field mem) (by omega) (by omega)

lemma escapeJson_array (wellFormed : (Json.array items).WellFormed) :
    escapeJson specials (.array items) = .array (items.map (escapeJson specials)) := by
  rw [escapeJson, escapeJsonWithin]
  congr 1
  apply map_congr_left
  intro item mem
  exact escapeJsonWithin_congr specials (Json.wellFormed_array.mp wellFormed item mem)
    (Json.depth_lt_array mem) (Nat.lt_succ_self _)

lemma escapeJson_object (wellFormed : (Json.object fields).WellFormed) :
    escapeJson specials (.object fields) =
      .object (escapeObject specials (escapeJson specials) fields) := by
  obtain ⟨unique, values⟩ := Json.wellFormed_object.mp wellFormed
  rw [escapeJson, escapeJsonWithin]
  congr 1
  apply (Escaping.start unique).run_congr unique unique
  intro field mem
  exact escapeJsonWithin_congr specials (values field mem)
    (Json.depth_lt_object mem) (Nat.lt_succ_self _)

/-- An escaped value has no control-token string in any key or string. -/
lemma escapeJson_clean (control : ControlStrings specials) (wellFormed : value.WellFormed) :
    (escapeJson specials value).Clean specials := by
  induction value using Json.nestedInduction with
  | leaf value flat =>
    cases value <;> simp [Json.depth, Json.Clean, Json.strings, escapeJson,
      escapeJsonWithin] at flat ⊢
    exact escapeSpecials_clean control _
  | array items ih =>
    rw [escapeJson_array wellFormed, Json.clean_array, forall_mem_map]
    intro old inside
    exact ih old inside (Json.wellFormed_array.mp wellFormed old inside)
  | object fields ih =>
    obtain ⟨unique, values⟩ := Json.wellFormed_object.mp wellFormed
    rw [escapeJson_object wellFormed, Json.clean_object]
    intro field mem
    obtain ⟨old, oldValue, inside, value, renamed⟩ :=
      ((Escaping.start unique).run unique unique).done field.1 field.2 mem not_mem_nil
    rw [value]
    exact ⟨renamed.clean control, ih _ inside (values _ inside)⟩

/-- A value without control-token strings is left alone. -/
lemma escapeJson_of_clean (wellFormed : value.WellFormed) (clean : value.Clean specials) :
    escapeJson specials value = value := by
  induction value using Json.nestedInduction with
  | leaf value flat =>
    cases value <;> simp [Json.depth, Json.Clean, Json.strings, escapeJson,
      escapeJsonWithin] at flat clean ⊢
    exact escapeSpecials_of_clean clean
  | array items ih =>
    rw [escapeJson_array wellFormed]
    congr 1
    conv_rhs => rw [← map_id items]
    apply map_congr_left
    intro item mem
    exact ih item mem (Json.wellFormed_array.mp wellFormed item mem)
      (Json.clean_array.mp clean item mem)
  | object fields ih =>
    obtain ⟨unique, values⟩ := Json.wellFormed_object.mp wellFormed
    rw [Json.clean_object] at clean
    rw [escapeJson_object wellFormed, escapeObject]
    congr 1
    have step : ∀ key, escapeField specials (escapeJson specials) fields key = fields := by
      intro key
      rcases @escapeField_cases specials (escapeJson specials) fields key with
        ⟨_, same⟩ | ⟨value, _, mem, same⟩ |
        ⟨value, left, _, ⟨special, among, inside⟩, split, _⟩
      · exact same
      · rw [same, ih _ mem (values _ mem) (clean _ mem).2]
        exact OrderedMap.insert_same unique mem
      · exact absurd inside ((clean _ (split.mem_iff.mp mem_cons_self)).1 special among)
    generalize keys fields = keys
    induction keys with
    | nil => rfl
    | cons key rest listHypothesis =>
      rw [foldl_cons, step]
      exact listHypothesis

/-- A clean key without the mark finds the escaped value it had. -/
lemma get_escapeJson (control : ControlStrings specials) (clean : CleanText specials word)
    (markless : escapeMark ∉ word) (wellFormed : value.WellFormed) :
    (escapeJson specials value).get word = (value.get word).map (escapeJson specials) := by
  cases value with
  | object fields =>
    obtain ⟨unique, _⟩ := Json.wellFormed_object.mp wellFormed
    have initial : Escaping specials (escapeJson specials) fields
        (keys fields) fields := Escaping.start unique
    have final := initial.run unique unique
    rw [escapeJson_object wellFormed, Json.get, Json.get]
    apply Option.ext
    intro found
    rw [Option.map_eq_some_iff]
    constructor
    · intro search
      obtain ⟨old, oldValue, mem, rfl, renamed⟩ :=
        final.done word found (mem_of_get search) not_mem_nil
      rcases renamed with ⟨_, rfl⟩ | ⟨dirty, count, shape⟩
      · exact ⟨oldValue, (get_eq_some unique).mpr mem, rfl⟩
      · -- a renamed key carries the mark
        have marked := mark_mem_escapeSpecials control dirty
        rw [shape] at markless
        exact absurd (mem_append_left _ marked) markless
    · rintro ⟨old, search, same⟩
      rw [← same]
      exact (get_eq_some final.unique).mpr
        (final.kept word old (mem_of_get search) not_mem_nil clean)
  | array items =>
    rw [escapeJson_array wellFormed]
    rfl
  | string text | null | bool value | number text => rfl

/-- A word with a control-token string is no key of an escaped value. -/
lemma get_escapeJson_dirty (control : ControlStrings specials) (dirty : ¬ CleanText specials word)
    (wellFormed : value.WellFormed) : (escapeJson specials value).get word = none := by
  have clean := escapeJson_clean control wellFormed
  generalize escapeJson specials value = escaped at clean
  cases escaped with
  | object fields =>
    rw [Json.get, OrderedMap.get_eq_none, OrderedMap.mem_keys]
    rintro ⟨found, mem⟩
    exact dirty (Json.clean_object.mp clean _ mem).1
  | array items | string text | null | bool value | number text => rfl

end Joshua
