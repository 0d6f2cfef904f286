/-
Module: Joshua.Foundation.Bytes
Purpose: Numbers as fixed numbers of bytes, fields with their length in front,
  and how a concatenation of fields is taken apart again, also by readers that
  may refuse; cutting a stream behind its last delimiter; reading and
  overwriting parts of a list, as programs do with slices of an array,
  position by position.
Trusted boundary: none
-/
import Mathlib.Algebra.GroupWithZero.Nat
import Mathlib.Data.List.FinRange

namespace Joshua.Foundation
open List

abbrev Bytes := List UInt8

variable {α : Type*}

section
section

/-! ## Fixed widths -/

/-- The lowest `width` bytes of a number, lowest first. -/
def leBytes : Nat → Nat → List UInt8
  | 0, _ => []
  | width + 1, value => UInt8.ofNat value :: leBytes width (value / 256)

/-- The number that bytes spell, lowest first. -/
def leValue : List UInt8 → Nat
  | [] => 0
  | byte :: rest => byte.toNat + 256 * leValue rest

/-- The lowest `width` bytes of a number, highest first. -/
def beBytes (width value : Nat) : List UInt8 :=
  (leBytes width value).reverse

def beValue (bytes : List UInt8) : Nat :=
  leValue bytes.reverse

@[simp]
lemma leBytes_length (width value : Nat) : (leBytes width value).length = width := by
  induction width generalizing value with
  | zero => rfl
  | succ width ih => rw [leBytes, length_cons, ih]

@[simp]
lemma beBytes_length (width value : Nat) : (beBytes width value).length = width := by
  rw [beBytes, length_reverse, leBytes_length]

variable {bytes : Bytes} {width : Nat}

lemma leValue_leBytes {value : Nat} (fits : value < 256 ^ width) :
    leValue (leBytes width value) = value := by
  induction width generalizing value with
  | zero =>
    rw [Nat.pow_zero] at fits
    exact (Nat.lt_one_iff.mp fits).symm
  | succ width ih =>
    have quotient : value / 256 < 256 ^ width := by
      rw [Nat.pow_succ] at fits
      exact Nat.div_lt_of_lt_mul (by rwa [mul_comm])
    rw [leBytes, leValue, ih quotient, UInt8.toNat_ofNat']
    exact Nat.mod_add_div value 256

lemma beValue_beBytes {value : Nat} (fits : value < 256 ^ width) :
    beValue (beBytes width value) = value := by
  rw [beValue, beBytes, reverse_reverse, leValue_leBytes fits]

section
variable (size : bytes.length = width)
include size

/-- Bytes are found again from the number they spell. -/
lemma leBytes_leValue : leBytes width (leValue bytes) = bytes := by
  subst size
  induction bytes with
  | nil => rfl
  | cons byte rest ih =>
    have small := byte.toNat_lt
    have quotient : (byte.toNat + 256 * leValue rest) / 256 = leValue rest := by omega
    have low : UInt8.ofNat (byte.toNat + 256 * leValue rest) = byte := by
      rw [← UInt8.toNat_inj, UInt8.toNat_ofNat']
      omega
    rw [length_cons, leValue, leBytes, quotient, ih, low]

lemma beBytes_beValue : beBytes width (beValue bytes) = bytes := by
  rw [beBytes, beValue, leBytes_leValue (by rwa [length_reverse]), reverse_reverse]

lemma leValue_lt : leValue bytes < 256 ^ width := by
  subst size
  induction bytes with
  | nil => decide
  | cons byte rest ih =>
    have small := byte.toNat_lt
    rw [leValue, length_cons, Nat.pow_succ]
    omega

lemma beValue_lt : beValue bytes < 256 ^ width :=
  leValue_lt (by rwa [length_reverse])

end

variable {left right : Nat}

section
variable (fitsLeft : left < 256 ^ width) (fitsRight : right < 256 ^ width)
include fitsLeft fitsRight

lemma leBytes_injective (same : leBytes width left = leBytes width right) : left = right := by
  rw [← leValue_leBytes fitsLeft, same, leValue_leBytes fitsRight]

lemma beBytes_injective (same : beBytes width left = beBytes width right) : left = right := by
  rw [← beValue_beBytes fitsLeft, same, beValue_beBytes fitsRight]

end

/-! ## Fields -/

/-- Fields of one width, one after the other. -/
lemma flatMap_injective {encode : α → Bytes} (size : ∀ item, (encode item).length = width)
    (injective : ∀ left right, encode left = encode right → left = right) {first second : List α}
    (count : first.length = second.length) (same : first.flatMap encode = second.flatMap encode) :
    first = second := by
  induction first generalizing second with
  | nil => exact (length_eq_zero_iff.mp count.symm).symm
  | cons item rest ih =>
    cases second with
    | nil => cases count
    | cons j others =>
      rw [flatMap_cons, flatMap_cons] at same
      obtain ⟨head, tail⟩ := append_inj same (by rw [size, size])
      rw [injective item j head, ih (Nat.succ.inj count) tail]

/-- The first `count` words, each with its highest byte first. -/
def readWords : Nat → List UInt8 → List UInt32
  | 0, _ => []
  | count + 1, bytes => UInt32.ofNat (beValue (bytes.take 4)) :: readWords count (bytes.drop 4)

section
variable (words : List UInt32)

/-- The bytes of words, each with its highest byte first. -/
def wordBytes : List UInt8 :=
  words.flatMap fun word => beBytes 4 word.toNat

@[simp]
lemma wordBytes_length : (wordBytes words).length = words.length * 4 := by
  rw [wordBytes, length_flatMap]
  simp

lemma readWords_wordBytes (rest : Bytes) :
    readWords words.length (wordBytes words ++ rest) = words := by
  induction words with
  | nil => rfl
  | cons word others ih =>
    have bits : UInt32.ofNat (beValue (beBytes 4 word.toNat)) = word := by
      rw [beValue_beBytes word.toNat_lt, UInt32.ofNat_toNat]
    rw [wordBytes] at ih ⊢
    rw [flatMap_cons, length_cons, readWords, append_assoc, take_left' (beBytes_length 4 _),
      drop_left' (beBytes_length 4 _), bits, ih]

end

@[simp]
lemma readWords_length (count : Nat) (bytes : Bytes) : (readWords count bytes).length = count := by
  induction count generalizing bytes with
  | zero => rfl
  | succ count ih => rw [readWords, length_cons, ih]

/-- Bytes are found again from the words they spell. -/
lemma wordBytes_readWords {count : Nat} (enough : count * 4 ≤ bytes.length) :
    wordBytes (readWords count bytes) = bytes.take (count * 4) := by
  induction count generalizing bytes with
  | zero => simp [readWords, wordBytes]
  | succ count ih =>
    have size : (bytes.take 4).length = 4 := by
      rw [length_take]
      omega
    have bits : (UInt32.ofNat (beValue (bytes.take 4))).toNat = beValue (bytes.take 4) := by
      rw [UInt32.toNat_ofNat']
      exact Nat.mod_eq_of_lt (beValue_lt size)
    have rest := @ih (bytes.drop 4) (by rw [length_drop]; omega)
    rw [wordBytes] at rest ⊢
    rw [readWords, flatMap_cons, bits, beBytes_beValue size, rest, Nat.succ_mul, add_comm, take_add]

/-- The fields of given widths at the beginning of bytes. -/
def cut : List Nat → List UInt8 → List (List UInt8)
  | [], _ => []
  | width :: widths, bytes => bytes.take width :: cut widths (bytes.drop width)

variable {widths : List Nat}

/-- Fields are found again by their widths. -/
lemma cut_flatten {fields : List Bytes} (sizes : fields.map List.length = widths)
    (rest : Bytes) : cut widths (fields.flatten ++ rest) = fields := by
  subst sizes
  induction fields with
  | nil => rfl
  | cons field fields ih => rw [map_cons, cut, flatten_cons, append_assoc, take_left, drop_left, ih]

/-- Bytes are found again from their fields. -/
lemma flatten_cut (widths : List Nat) (bytes : Bytes) :
    (cut widths bytes).flatten = bytes.take widths.sum := by
  induction widths generalizing bytes with
  | nil => simp [cut]
  | cons width widths ih => rw [cut, flatten_cons, ih, sum_cons, take_add]

lemma cut_widths (enough : widths.sum ≤ bytes.length) :
    (cut widths bytes).map List.length = widths := by
  induction widths generalizing bytes with
  | nil => rfl
  | cons width widths ih =>
    rw [sum_cons] at enough
    rw [cut, map_cons, ih (by rw [length_drop]; omega), length_take, min_eq_left (by omega)]

/-- A field behind its length in eight bytes. -/
def lengthPrefixed (field : List UInt8) : List UInt8 :=
  leBytes 8 field.length ++ field

/-- Where a field behind its length ends can be read off. -/
lemma lengthPrefixed_append_inj {first second restFirst restSecond : Bytes}
    (fitsFirst : first.length < 256 ^ 8) (fitsSecond : second.length < 256 ^ 8)
    (same : lengthPrefixed first ++ restFirst = lengthPrefixed second ++ restSecond) :
    first = second ∧ restFirst = restSecond := by
  rw [lengthPrefixed, lengthPrefixed, append_assoc, append_assoc] at same
  obtain ⟨sizes, bodies⟩ := append_inj same (by simp)
  exact append_inj bodies (leBytes_injective fitsFirst fitsSecond sizes)

/-- Fields behind their lengths, one after the other. -/
lemma fields_injective {first second : List Bytes}
    (fitsFirst : ∀ field ∈ first, field.length < 256 ^ 8)
    (fitsSecond : ∀ field ∈ second, field.length < 256 ^ 8)
    (same : first.flatMap lengthPrefixed = second.flatMap lengthPrefixed) : first = second := by
  induction first generalizing second with
  | nil =>
    cases second with
    | nil => rfl
    | cons j others => cases congrArg length same
  | cons field rest ih =>
    cases second with
    | nil => cases congrArg length same
    | cons j others =>
      rw [flatMap_cons, flatMap_cons] at same
      obtain ⟨head, tail⟩ := lengthPrefixed_append_inj (fitsFirst field mem_cons_self)
        (fitsSecond j mem_cons_self) same
      rw [head, ih (fun item inside => fitsFirst item (mem_cons_of_mem _ inside))
        (fun item inside => fitsSecond item (mem_cons_of_mem _ inside)) tail]

end

/-- A reader: it takes bytes off the stream and returns a value, or refuses. -/
abbrev Decoder (ε : Type) := StateT (List UInt8) (Except ε)

namespace Decoder

variable {ε α β : Type}

/-- `read_exact`; the error may name how many bytes there were. -/
def take (short : Nat → ε) (count : Nat) : Decoder ε (List UInt8) :=
  fun input =>
    if count ≤ input.length then .ok (input.take count, input.drop count)
    else .error (short input.length)

/-- A number of fixed width, lowest byte first. -/
def number (short : ε) (width : Nat) : Decoder ε Nat := do
  let bytes ← take (fun _ => short) width
  return leValue bytes

/-- The same reader a number of times. -/
def many : Nat → Decoder ε α → Decoder ε (List α)
  | 0, _ => pure []
  | count + 1, decoder => do
      let value ← decoder
      let values ← many count decoder
      return value :: values

variable {input rest : Bytes}

lemma bind_eq_ok {first : Decoder ε α} {next : α → Decoder ε β} {result : β} :
    (first >>= next) input = .ok (result, rest) ↔
      ∃ value between, first input = .ok (value, between) ∧
        next value between = .ok (result, rest) := by
  show (first input).bind (fun pair => next pair.1 pair.2) = _ ↔ _
  cases first input with
  | error failure => simp [Except.bind]
  | ok pair =>
    obtain ⟨value, between⟩ := pair
    simp [Except.bind]

lemma pure_eq_ok {value result : α} :
    (pure value : Decoder ε α) input = .ok (result, rest) ↔ value = result ∧ input = rest := by
  show Except.ok (value, input) = Except.ok (result, rest) ↔ _
  simp

/-! ## Reading an encoding back -/

/-- The reader takes exactly these bytes off any stream that starts with them
and returns the value. -/
def Reads (decoder : Decoder ε α) (bytes : List UInt8) (value : α) : Prop :=
  ∀ rest, decoder (bytes ++ rest) = .ok (value, rest)

namespace Reads

lemma pure (value : α) : Reads (Pure.pure value : Decoder ε α) [] value :=
  fun _ => rfl

variable {bytes : Bytes} {first : Decoder ε α} {value : α}

lemma bind {next : α → Decoder ε β} {others : Bytes} {result : β}
    (start : Reads first bytes value) (rest : Reads (next value) others result) :
    Reads (first >>= next) (bytes ++ others) result := by
  intro tail
  rw [append_assoc, bind_eq_ok]
  exact ⟨value, others ++ tail, start _, rest tail⟩

variable {compute : α → β}

/-- A value that is computed from what was read. -/
lemma bind_pure (start : Reads first bytes value) :
    Reads (first >>= fun read => Pure.pure (compute read)) bytes (compute value) := by
  rw [← append_nil bytes]
  exact start.bind (pure (compute value))

lemma bind_pure_eq {result : β} (start : Reads first bytes value) (same : compute value = result) :
    Reads (first >>= fun read => Pure.pure (compute read)) bytes result := by
  rw [← same]
  exact start.bind_pure

variable {decoder : Decoder ε α}

/-- A check that is passed. -/
lemma orElse {refuse : Prop} [Decidable refuse] {failure : ε} (passed : ¬ refuse)
    (reads : Reads decoder bytes value) :
    Reads (if refuse then throw failure else decoder) bytes value := by
  rw [if_neg passed]
  exact reads

lemma take (short : Nat → ε) (bytes : Bytes) :
    Reads (Decoder.take short bytes.length) bytes bytes := by
  intro rest
  rw [Decoder.take, if_pos (by simp), take_left, drop_left]

lemma number (short : ε) {width value : Nat} (fits : value < 256 ^ width) :
    Reads (Decoder.number short width) (leBytes width value) value := by
  have read := take (fun _ => short) (leBytes width value)
  rw [leBytes_length] at read
  have both : Reads (Decoder.number short width) (leBytes width value)
      (leValue (leBytes width value)) := read.bind_pure
  rwa [leValue_leBytes fits] at both

variable {encode : α → Bytes}

/-- Sources that are written one after the other are read as their
values. -/
lemma many_map {decoder : Decoder ε β} {value : α → β} {sources : List α}
    (each : ∀ source ∈ sources, Reads decoder (encode source) (value source)) :
    Reads (Decoder.many sources.length decoder) (sources.flatMap encode) (sources.map value) := by
  induction sources with
  | nil => exact pure []
  | cons source rest ih =>
    rw [length_cons, Decoder.many, flatMap_cons, map_cons]
    refine (each source mem_cons_self).bind ?_
    exact (ih fun j mem => each j (mem_cons_of_mem _ mem)).bind_pure

lemma many {values : List α} (each : ∀ value ∈ values, Reads decoder (encode value) value) :
    Reads (Decoder.many values.length decoder) (values.flatMap encode) values := by
  have read := many_map each
  rwa [map_id'] at read

end Reads

/-! ## What a returned value satisfies -/

/-- Whatever the reader returns satisfies the condition. -/
def Ensures (decoder : Decoder ε α) (post : α → Prop) : Prop :=
  ∀ input value rest, decoder input = .ok (value, rest) → post value

namespace Ensures

variable {post : α → Prop}

lemma pure {value : α} (holds : post value) : Ensures (Pure.pure value : Decoder ε α) post := by
  intro input result rest returned
  rw [← (pure_eq_ok.mp returned).1]
  exact holds

lemma throw (failure : ε) : Ensures (MonadExcept.throw failure : Decoder ε α) post := by
  intro input result rest returned
  cases returned

variable {decoder : Decoder ε α}

/-- Behind a check its negation is known. -/
lemma orElse {refuse : Prop} [Decidable refuse] {failure : ε}
    (passed : ¬ refuse → Ensures decoder post) :
    Ensures (if refuse then MonadExcept.throw failure else decoder) post := by
  split
  next => exact throw failure
  next other => exact passed other

lemma bind {first : Decoder ε α} {next : α → Decoder ε β} {between : α → Prop} {post : β → Prop}
    (start : Ensures first between) (rest : ∀ value, between value → Ensures (next value) post) :
    Ensures (first >>= next) post := by
  intro input result tail returned
  obtain ⟨value, middle, one, two⟩ := bind_eq_ok.mp returned
  exact rest value (start _ _ _ one) _ _ _ two

lemma trivial (decoder : Decoder ε α) : Ensures decoder fun _ => True :=
  fun _ _ _ _ => True.intro

lemma many (each : Ensures decoder post) (count : Nat) :
    Ensures (Decoder.many count decoder) fun values =>
      values.length = count ∧ ∀ value ∈ values, post value := by
  induction count with
  | zero => exact pure ⟨rfl, nofun⟩
  | succ count ih =>
    refine each.bind fun value holds => ih.bind ?_
    rintro values ⟨length, all⟩
    refine pure ⟨by rw [length_cons, length], ?_⟩
    exact forall_mem_cons.mpr ⟨holds, all⟩

end Ensures

/-! ## What is left of the stream -/

/-- What the reader leaves is the end of what it was given. -/
def Drops (decoder : Decoder ε α) : Prop :=
  ∀ input value rest, decoder input = .ok (value, rest) → rest <:+ input

namespace Drops

lemma pure (value : α) : Drops (Pure.pure value : Decoder ε α) := by
  intro input result rest returned
  have same := (pure_eq_ok.mp returned).2
  subst same
  exact suffix_rfl

lemma throw (failure : ε) : Drops (MonadExcept.throw failure : Decoder ε α) := by
  intro input result rest returned
  cases returned

variable {decoder : Decoder ε α}

lemma orElse {refuse : Prop} [Decidable refuse] {failure : ε} (drops : Drops decoder) :
    Drops (if refuse then MonadExcept.throw failure else decoder) := by
  split
  · exact throw failure
  · exact drops

lemma bind {first : Decoder ε α} {next : α → Decoder ε β} (start : Drops first)
    (rest : ∀ value, Drops (next value)) : Drops (first >>= next) := by
  intro input result tail returned
  obtain ⟨value, middle, one, two⟩ := bind_eq_ok.mp returned
  exact (rest value _ _ _ two).trans (start _ _ _ one)

lemma take (short : Nat → ε) (count : Nat) : Drops (Decoder.take short count) := by
  intro input value rest returned
  rw [Decoder.take] at returned
  split at returned
  next =>
    obtain ⟨_, rfl⟩ := Prod.mk.inj (Except.ok.inj returned)
    exact drop_suffix count input
  next => cases returned

lemma number (short : ε) (width : Nat) : Drops (Decoder.number short width) :=
  (take _ width).bind fun _ => pure _

lemma many (drops : Drops decoder) (count : Nat) : Drops (Decoder.many count decoder) := by
  induction count with
  | zero => exact pure []
  | succ count ih => exact drops.bind fun _ => ih.bind fun _ => pure _

end Drops

end Decoder

variable [DecidableEq α]

/-- `windows(_).rposition(_)`: the last place where the pattern stands. -/
def lastMatch (pattern items : List α) : Option Nat :=
  (List.range (items.length + 1)).reverse.find? fun place => pattern.isPrefixOf (items.drop place)

/-- What is complete, and what is kept. -/
def cutLast (pattern items : List α) : Option (List α) × List α :=
  match lastMatch pattern items with
  | none => (none, items)
  | some place => (some (items.take (place + pattern.length)), items.drop (place + pattern.length))

variable {pattern items : List α}

lemma lastMatch_eq_none (absent : lastMatch pattern items = none) : ¬ pattern <:+: items := by
  rintro ⟨before, after, rfl⟩
  rw [lastMatch, List.find?_eq_none] at absent
  refine absent before.length ?_ ?_
  · rw [mem_reverse, mem_range, length_append, length_append]
    omega
  · rw [ isPrefixOf_iff_prefix, append_assoc, drop_left]
    exact prefix_append _ _

lemma lastMatch_eq_some {place : Nat} (found : lastMatch pattern items = some place) :
    place ≤ items.length ∧ pattern <+: items.drop place ∧
      ∀ later, place < later → later ≤ items.length → ¬ pattern <+: items.drop later := by
  rw [lastMatch, List.find?_eq_some_iff_getElem] at found
  obtain ⟨here, i, inside, same, others⟩ := found
  simp only [length_reverse, length_range, getElem_reverse, getElem_range] at inside same others
  refine ⟨by omega, isPrefixOf_iff_prefix.mp here, ?_⟩
  intro later above below starts
  -- a later place was looked at before
  have refused := others (items.length - later) (by omega)
  have place_eq : items.length + 1 - 1 - (items.length - later) = later := by omega
  rw [place_eq, isPrefixOf_iff_prefix.mpr starts] at refused
  cases refused

/-- Nothing is complete. -/
lemma cutLast_none {kept : List α} (cut : cutLast pattern items = (none, kept)) :
    kept = items ∧ ¬ pattern <:+: kept := by
  rw [cutLast] at cut
  split at cut
  next absent =>
    obtain ⟨_, rfl⟩ := Prod.mk.inj cut
    exact ⟨rfl, lastMatch_eq_none absent⟩
  next => cases cut

/-- A part is complete: it ends with the delimiter, and what is kept does not
contain it. -/
lemma cutLast_some {piece kept : List α} (filled : pattern ≠ [])
    (cut : cutLast pattern items = (some piece, kept)) :
    piece ++ kept = items ∧ pattern <:+ piece ∧ ¬ pattern <:+: kept := by
  rw [cutLast] at cut
  split at cut
  next => cases cut
  next place found =>
    obtain ⟨one, rfl⟩ := Prod.mk.inj cut
    obtain rfl := Option.some.inj one
    obtain ⟨inside, ⟨after, starts⟩, last⟩ := lastMatch_eq_some found
    refine ⟨take_append_drop _ _, ?_, ?_⟩
    · rw [take_add, ← starts, take_left]
      exact suffix_append _ _
    · rintro ⟨between, rest, whole⟩
      have pos := length_pos_of_ne_nil filled
      have further : items.drop (place + pattern.length + between.length) = pattern ++ rest := by
        rw [← drop_drop, ← whole, append_assoc, drop_left]
      refine last (place + pattern.length + between.length) (by omega) ?_ ?_
      · by_contra outside
        rw [drop_eq_nil_of_le (by omega)] at further
        exact filled (append_eq_nil_iff.mp further.symm).1
      · rw [further]
        exact prefix_append _ _

end

/-- `items[start..start + size]`. -/
def slice (start size : Nat) (items : List α) : List α :=
  (items.drop start).take size

/-- `items[start..start + new.len()].copy_from_slice(new)`. -/
def splice (start : Nat) (new items : List α) : List α :=
  items.take start ++ new ++ items.drop (start + new.length)

lemma getElem?_slice (start size : Nat) (items : List α) (place : Nat) :
    (slice start size items)[place]? = if place < size then items[start + place]? else none := by
  rw [slice, List.getElem?_take]
  split
  next => rw [List.getElem?_drop]
  next => rfl

variable {start : Nat} {items new : List α} {size place rank chunk width : Nat}

lemma length_slice (lt : start + size ≤ items.length) : (slice start size items).length = size := by
  rw [slice, length_take, length_drop]
  omega

lemma length_splice (lt : start + new.length ≤ items.length) :
    (splice start new items).length = items.length := by
  rw [splice, length_append, length_append, length_take, length_drop]
  omega

/-- What is overwritten and what is not. -/
lemma getElem?_splice (lt : start + new.length ≤ items.length) (place : Nat) :
    (splice start new items)[place]? =
      if start ≤ place ∧ place < start + new.length then
        new[place - start]?
      else items[place]? := by
  have size : (items.take start).length = start := by
    rw [length_take]
    omega
  rw [splice, List.append_assoc]
  by_cases before : place < start
  · rw [if_neg (by omega), List.getElem?_append_left (by omega), List.getElem?_take_of_lt before]
  · rw [List.getElem?_append_right (by omega), size]
    by_cases within : place < start + new.length
    · rw [if_pos ⟨by omega, within⟩, List.getElem?_append_left (by omega)]
    · rw [if_neg (by omega), List.getElem?_append_right (by omega), List.getElem?_drop]
      congr 1
      omega

/-- A slice by its positions. -/
lemma slice_eq_iff {part : List α} (length : part.length = size) :
    slice start size items = part ↔ ∀ place < size, items[start + place]? = part[place]? := by
  constructor
  · rintro rfl place inside
    rw [getElem?_slice, if_pos inside]
  · intro same
    refine ext_getElem? fun place => ?_
    rw [getElem?_slice]
    split
    next inside => exact same place inside
    next outside => exact (List.getElem?_eq_none (by omega)).symm

/-- What was written is read back. -/
lemma slice_splice_self (length : new.length = size) (lt : start + size ≤ items.length) :
    slice start size (splice start new items) = new := by
  subst length
  refine (slice_eq_iff rfl).mpr fun place place_lt => ?_
  rw [getElem?_splice lt, if_pos (by omega), Nat.add_sub_cancel_left]

/-- What lies apart from what is written stays. -/
lemma slice_splice_apart {j : Nat} (lt : start + new.length ≤ items.length)
    (apart : start + new.length ≤ j ∨ j + size ≤ start) :
    slice j size (splice start new items) = slice j size items := by
  refine ext_getElem? fun place => ?_
  rw [getElem?_slice, getElem?_slice]
  split
  next place_lt => rw [getElem?_splice lt, if_neg (by omega)]
  next => rfl

lemma slice_all (length : items.length = size) : slice 0 size items = items := by
  rw [slice, drop_zero, ← length, take_length]

/-- A part of a part. -/
lemma slice_slice {j width : Nat} (inside : j + width ≤ size) :
    slice j width (slice start size items) = slice (start + j) width items := by
  rw [slice, slice, slice, drop_take, take_take, drop_drop, min_eq_left (by omega)]

/-- A slice is that of its blocks. -/
lemma slice_blocks {count : Nat} (start : Nat) (items : List α) (enough : size ≤ count * width) :
    slice start size items = (List.range count).flatMap fun block =>
      slice (start + block * width) (min (size - block * width) width) items := by
  have upTo (count : Nat) : slice start (min size (count * width)) items =
      (List.range count).flatMap fun block =>
        slice (start + block * width) (min (size - block * width) width) items := by
    induction count with
    | zero => simp [slice]
    | succ count ih =>
      have more : min size ((count + 1) * width) =
          min size (count * width) + min (size - count * width) width := by
        rw [Nat.succ_mul]
        omega
      rw [range_succ, flatMap_append, ← ih, flatMap_singleton, more]
      simp only [slice, take_add, drop_drop]
      by_cases beyond : size ≤ count * width
      · simp [Nat.sub_eq_zero_of_le beyond]
      · rw [min_eq_right (le_of_not_ge beyond)]
  rw [← upTo, min_eq_left enough]

/-- A flag behind an assignment. -/
lemma getD_set {flags : List Bool} (lt : place < flags.length) (value : Bool) (j : Nat) :
    (flags.set place value).getD j false = if place = j then value else flags.getD j false := by
  rw [getD_eq_getElem?_getD, List.getElem?_set]
  split
  next => rfl
  next => rw [getD_eq_getElem?_getD]

/-- A pair of numbers is found from its place in a table. -/
lemma table_inj {rank' chunk' : Nat} (chunk_lt : chunk < width) (chunk_lt' : chunk' < width) :
    rank * width + chunk = rank' * width + chunk' ↔ rank = rank' ∧ chunk = chunk' := by
  constructor
  · intro same
    have quotients : (rank * width + chunk) / width =
        (rank' * width + chunk') / width := by rw [same]
    rw [mul_comm rank, mul_comm rank', Nat.mul_add_div (by omega),
      Nat.mul_add_div (by omega), Nat.div_eq_of_lt chunk_lt,
      Nat.div_eq_of_lt chunk_lt', add_zero, add_zero] at quotients
    subst quotients
    exact ⟨rfl, by omega⟩
  · rintro ⟨rfl, rfl⟩
    rfl

lemma table_lt {ranks : Nat} (rank_lt : rank < ranks) (chunk_lt : chunk < width) :
    rank * width + chunk < ranks * width := by
  calc rank * width + chunk < rank * width + width := by omega
    _ = (rank + 1) * width := by rw [Nat.succ_mul]
    _ ≤ ranks * width := Nat.mul_le_mul_right _ rank_lt

/-- The positions of blocks of one length, one behind the other. -/
lemma getElem?_flatMap_blocks {β : Type*} {block : α → List β} (items : List α)
    (lengths : ∀ item ∈ items, (block item).length = size) (index : Nat) (lt : place < size) :
    (items.flatMap block)[index * size + place]? =
      items[index]?.bind fun item => (block item)[place]? := by
  induction items generalizing index with
  | nil => simp
  | cons item rest ih =>
    have first := lengths item List.mem_cons_self
    rw [flatMap_cons]
    cases index with
    | zero =>
      rw [List.getElem?_append_left (by omega)]
      simp
    | succ index =>
      have past : (block item).length ≤ (index + 1) * size + place := by
        rw [Nat.succ_mul]
        omega
      have left : (index + 1) * size + place - (block item).length = index * size + place := by
        rw [Nat.succ_mul]
        omega
      rw [List.getElem?_append_right past, left, ih
        (fun item later => lengths item (List.mem_cons_of_mem _ later)), List.getElem?_cons_succ]

/-- The vectors of all ranks, one behind the other. -/
def allInputs {ranks : Nat} (vectors : Fin ranks → List α) : List α :=
  (List.finRange ranks).flatMap vectors

section AllInputs
variable {ranks size : Nat} {vectors : Fin ranks → List α}
  (lengths : ∀ rank, (vectors rank).length = size)
include lengths

/-- The place of one rank's vector among all. -/
lemma getElem?_allInputs (rank : Fin ranks) (lt : place < size) :
    (allInputs vectors)[rank.val * size + place]? = (vectors rank)[place]? := by
  rw [allInputs, getElem?_flatMap_blocks _ (fun rank _ => lengths rank) _
    lt, List.getElem?_eq_getElem (by simp)]
  simp

lemma allInputs_length : (allInputs vectors).length = ranks * size := by
  rw [allInputs, length_flatMap]
  simp [lengths]

/-- All vectors by their chunks. -/
lemma eq_allInputs_of_chunks (positive : 0 < width) {inputs : List α}
    (length : inputs.length = ranks * size)
    (chunks : ∀ (rank : Fin ranks) (chunk : Nat), chunk * width < size →
      slice (rank.val * size + chunk * width) (min (size - chunk * width) width) inputs =
        slice (chunk * width) (min (size - chunk * width) width) (vectors rank)) :
    inputs = allInputs vectors := by
  have vector (rank : Fin ranks) : slice (rank.val * size) size inputs = vectors rank := by
    have enough : size ≤ (size + width - 1) / width * width := by
      have floor := Nat.lt_div_mul_add (a := size + width - 1) positive
      omega
    rw [← slice_all (lengths rank), slice_blocks _ _ enough, slice_blocks _ _ enough]
    refine flatMap_congr fun chunk mem => ?_
    have inside := (Nat.lt_div_iff_mul_lt positive).mp (List.mem_range.mp mem)
    rw [zero_add, chunks rank chunk (by omega)]
  have whole := slice_blocks 0 inputs (le_refl (ranks * size))
  rw [slice_all length, ← List.map_coe_finRange_eq_range, flatMap_map] at whole
  rw [whole, allInputs]
  refine flatMap_congr fun rank _ => ?_
  have last := Nat.mul_le_mul_right size rank.isLt
  rw [Nat.succ_mul] at last
  rw [zero_add, min_eq_right (by omega), vector]

end AllInputs

end Joshua.Foundation
