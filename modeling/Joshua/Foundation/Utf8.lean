/-
Module: Joshua.Foundation.Utf8
Purpose: Lossy decoding of UTF-8 as an automaton on bytes: a character that has
  only begun is shown as a replacement character, and the last bytes tell how
  the text goes on; encoding, and that decoding gives the text back.
Trusted boundary: none
-/
import Mathlib.Algebra.GroupWithZero.Nat
import Mathlib.Data.List.DropRight

namespace Joshua.Foundation.Utf8
open List

variable {next code : Nat}

section

/-- U+FFFD. -/
def replacement : Char := '�'

/-- The six bits of a continuation byte. -/
def bits (byte : UInt8) : Option Nat :=
  if 0x80 ≤ byte.toNat ∧ byte.toNat ≤ 0xBF then some (byte.toNat - 0x80)
  else none

/-- A character that has begun: its bits so far, how many bytes follow the
next one, and the bits the next one can have.  Whatever comes, the character
is a scalar value above ASCII. -/
structure Begun where
  value : Nat
  more : Nat
  low : Nat
  high : Nat
  few : more ≤ 2
  above : 0x80 ≤ (value * 64 + low) * 64 ^ more
  scalar : (value * 64 + high + 1) * 64 ^ more ≤ 0xD800 ∨ 0xE000 ≤ (value * 64 + low) * 64 ^ more ∧
      (value * 64 + high + 1) * 64 ^ more ≤ 0x110000
deriving DecidableEq

/-- What a byte gives at the start of a character. -/
def lead (byte : UInt8) : List Char × Option Begun :=
  let code := byte.toNat
  if code < 0x80 then ([Char.ofNat code], none)
  else if two : 0xC2 ≤ code ∧ code ≤ 0xDF then
    ([], some ⟨code - 0xC0, 0, 0x00, 0x3F, by decide, by omega, by omega⟩)
  else if code = 0xE0 then
    ([], some ⟨0, 1, 0x20, 0x3F, by decide, by decide, by decide⟩)
  else if middle : code = 0xED then
    ([], some ⟨0xD, 1, 0x00, 0x1F, by decide, by decide, by decide⟩)
  else if three : 0xE1 ≤ code ∧ code ≤ 0xEF then
    ([], some ⟨code - 0xE0, 1, 0x00, 0x3F, by decide, by omega, by omega⟩)
  else if code = 0xF0 then
    ([], some ⟨0, 2, 0x10, 0x3F, by decide, by decide, by decide⟩)
  else if code = 0xF4 then
    ([], some ⟨4, 2, 0x00, 0x0F, by decide, by decide, by decide⟩)
  else if four : 0xF1 ≤ code ∧ code ≤ 0xF3 then
    ([], some ⟨code - 0xF0, 2, 0x00, 0x3F, by decide, by omega, by omega⟩)
  else ([replacement], none)

namespace Begun

variable (begun : Begun) {next : Nat} (low : begun.low ≤ next) (high : next ≤ begun.high)
include low in
/-- With the next six bits the character stays in its range. -/
lemma above_next : 0x80 ≤ (begun.value * 64 + next) * 64 ^ begun.more :=
  le_trans begun.above (Nat.mul_le_mul_right _ (by omega))

include low high in
lemma scalar_next : (begun.value * 64 + next + 1) * 64 ^ begun.more ≤ 0xD800 ∨
      0xE000 ≤ (begun.value * 64 + next) * 64 ^ begun.more ∧
        (begun.value * 64 + next + 1) * 64 ^ begun.more ≤ 0x110000 := by
  have less : (begun.value * 64 + next + 1) * 64 ^ begun.more ≤
      (begun.value * 64 + begun.high + 1) * 64 ^ begun.more :=
    Nat.mul_le_mul_right _ (by omega)
  have more : (begun.value * 64 + begun.low) * 64 ^ begun.more ≤
      (begun.value * 64 + next) * 64 ^ begun.more :=
    Nat.mul_le_mul_right _ (by omega)
  rcases begun.scalar with small | ⟨large, bound⟩
  · exact .inl (le_trans less small)
  · exact .inr ⟨le_trans large more, le_trans less bound⟩

/-- The character goes on with six bits. -/
def take (further : begun.more ≠ 0) : Begun where
  value := begun.value * 64 + next
  more := begun.more - 1
  low := 0x00
  high := 0x3F
  few := le_trans (Nat.sub_le _ _) begun.few
  above := by
    have same := begun.above_next low
    obtain ⟨rest, more⟩ := Nat.exists_eq_succ_of_ne_zero further
    rw [more, Nat.pow_succ'] at same
    rw [more, Nat.succ_sub_one, add_zero, mul_assoc]
    exact same
  scalar := by
    have same := begun.scalar_next low high
    obtain ⟨rest, more⟩ := Nat.exists_eq_succ_of_ne_zero further
    rw [more, Nat.pow_succ', ← mul_assoc, ← mul_assoc] at same
    have wide : (begun.value * 64 + next + 1) * 64 = (begun.value * 64 + next) * 64 + 0x3F + 1 := by
      omega
    rw [wide] at same
    rw [more]
    exact same

end Begun

/-- The byte that follows a character that has begun: it belongs to it, or
what had begun is replaced and the byte starts anew. -/
def follow (begun : Begun) (byte : UInt8) : List Char × Option Begun :=
  match bits byte with
  | some next =>
    if inside : begun.low ≤ next ∧ next ≤ begun.high then
      if further : begun.more ≠ 0 then
        ([], some (begun.take inside.1 inside.2 further))
      else ([Char.ofNat (begun.value * 64 + next)], none)
    else (replacement :: (lead byte).1, (lead byte).2)
  | none => (replacement :: (lead byte).1, (lead byte).2)

def step : Option Begun → UInt8 → List Char × Option Begun
  | none, byte => lead byte
  | some begun, byte => follow begun byte

/-- The characters that bytes complete. -/
def out : Option Begun → List UInt8 → List Char
  | _, [] => []
  | state, byte :: rest => (step state byte).1 ++ out (step state byte).2 rest

/-- What has begun after bytes. -/
def after : Option Begun → List UInt8 → Option Begun
  | state, [] => state
  | state, byte :: rest => after (step state byte).2 rest

/-- A character that has only begun is shown as a replacement. -/
def flush : Option Begun → List Char
  | none => []
  | some _ => [replacement]

/-- The text of bytes that follow what has begun. -/
def lossyFrom (state : Option Begun) (bytes : List UInt8) : List Char :=
  out state bytes ++ flush (after state bytes)

/-- `String::from_utf8_lossy`. -/
def lossy (bytes : List UInt8) : List Char :=
  lossyFrom none bytes

section
variable (state : Option Begun) (first second : List UInt8)

lemma out_append :
    out state (first ++ second) = out state first ++ out (after state first) second := by
  induction first generalizing state with
  | nil => rfl
  | cons byte rest ih => simp only [cons_append, out, after, ih, append_assoc]

lemma after_append : after state (first ++ second) = after (after state first) second := by
  induction first generalizing state with
  | nil => rfl
  | cons byte rest ih => exact ih _

lemma lossyFrom_append : lossyFrom state (first ++ second) =
      out state first ++ lossyFrom (after state first) second := by
  rw [lossyFrom, lossyFrom, out_append, after_append, append_assoc]

end

/-- A byte inside a character begins none. -/
lemma lead_continuation {byte : UInt8} (found : bits byte = some next) : (lead byte).2 = none := by
  have range : 0x80 ≤ byte.toNat ∧ byte.toNat ≤ 0xBF := by
    by_contra outside
    rw [bits, if_neg outside] at found
    cases found
  rw [lead]
  split_ifs <;> first | rfl | omega

/-- What a byte can do behind a character that has begun. -/
lemma follow_cases (begun : Begun) (byte : UInt8) :
    follow begun byte = (replacement :: (lead byte).1, (lead byte).2) ∨
      (lead byte).2 = none ∧
        ((∃ next, begun.low ≤ next ∧ next ≤ begun.high ∧ begun.more = 0 ∧
          follow begun byte = ([Char.ofNat (begun.value * 64 + next)], none)) ∨
        ∃ later, later.more + 1 = begun.more ∧ follow begun byte = ([], some later)) := by
  rw [follow]
  split
  next next found =>
    split
    next inside =>
      refine .inr ⟨lead_continuation found, ?_⟩
      split
      next further =>
        exact .inr ⟨_, Nat.sub_add_cancel (Nat.one_le_iff_ne_zero.mpr further), rfl⟩
      next last => exact .inl ⟨next, inside.1, inside.2, Classical.not_not.mp last, rfl⟩
    next => exact .inl rfl
  next => exact .inl rfl

/-! ## Starting in the middle -/

/-- A byte more than the character that has begun can take, and it does not
matter that it had begun. -/
lemma after_begun (begun : Begun) (bytes : List UInt8) (long : begun.more < bytes.length) :
    after (some begun) bytes = after none bytes := by
  induction bytes generalizing begun with
  | nil => exact absurd long (Nat.not_lt_zero _)
  | cons byte rest ih =>
    rw [length_cons] at long
    simp only [after, step]
    rcases follow_cases begun byte with
      same | ⟨quiet, ⟨_, _, _, _, same⟩ | ⟨later, fewer, same⟩⟩
    · rw [same]
    · rw [same, quiet]
    · rw [same, quiet]
      exact ih later (by omega)

/-- The text of all bytes goes on like that of the last ones if these are three
or more, as long as what they have begun stays replaced. -/
lemma lossy_window {front last more : List UInt8} (long : front = [] ∨ 3 ≤ last.length)
    (kept : lossy last <+: lossy (last ++ more)) : lossy (front ++ last) ++
      (lossy (last ++ more)).drop (lossy last).length = lossy (front ++ last ++ more) := by
  have state : after none (front ++ last) = after none last := by
    rcases long with rfl | long
    · rfl
    rw [after_append]
    cases after none front with
    | none => rfl
    | some begun => exact after_begun begun last (begun.few.trans_lt long)
  obtain ⟨piece, whole⟩ := kept
  rw [← whole, drop_left]
  rw [lossy, lossy, lossyFrom_append, lossyFrom, append_assoc, append_cancel_left_eq] at whole
  rw [lossy, lossy, lossyFrom_append _ (front ++ last), lossyFrom, append_assoc, state, whole]

lemma toNat_ofNat_char (scalar : code < 0xD800 ∨ 0xE000 ≤ code ∧ code < 0x110000) :
    (Char.ofNat code).toNat = code := by
  have valid : code.isValidChar := by
    rw [Nat.isValidChar]
    omega
  rw [Char.ofNat, dif_pos valid]
  rfl

/-- Only the code zero is that of NUL. -/
lemma ofNat_ne_nul (pos : code ≠ 0) (scalar : code < 0xD800 ∨ 0xE000 ≤ code ∧ code < 0x110000) :
    Char.ofNat code ≠ '\x00' := by
  intro zero
  have same := toNat_ofNat_char scalar
  rw [zero] at same
  exact pos same.symm

lemma Begun.visible_next (begun : Begun) (last : begun.more = 0) {next : Nat}
    (low : begun.low ≤ next) (high : next ≤ begun.high) :
    Char.ofNat (begun.value * 64 + next) ≠ '\x00' := by
  have above := begun.above_next low
  have scalar := begun.scalar_next low high
  rw [last, Nat.pow_zero, mul_one] at above scalar
  rw [mul_one] at scalar
  exact ofNat_ne_nul (by omega) (by omega)

end

open UInt8 (ofNat)

/-! ## Encoding -/

/-- The bytes of a character. -/
def encodeChar (char : Char) : List UInt8 :=
  let code := char.toNat
  if code < 0x80 then
    [ofNat code]
  else if code < 0x800 then
    [ofNat (0xC0 + code / 64), ofNat (0x80 + code % 64)]
  else if code < 0x10000 then
    [ofNat (0xE0 + code / 4096), ofNat (0x80 + code / 64 % 64), ofNat (0x80 + code % 64)]
  else
    [ofNat (0xF0 + code / 262144), ofNat (0x80 + code / 4096 % 64),
      ofNat (0x80 + code / 64 % 64), ofNat (0x80 + code % 64)]

/-- The bytes of a text. -/
def encode (text : List Char) : List UInt8 :=
  text.flatMap encodeChar

/-! ## One character read back -/

variable {value more low high : Nat}

lemma toNat_ofNat_byte (small : value < 256) : (ofNat value).toNat = value := by
  rw [UInt8.toNat_ofNat']
  exact Nat.mod_eq_of_lt small

lemma bits_continuation (small : next < 64) : bits (ofNat (0x80 + next)) = some next := by
  rw [bits, toNat_ofNat_byte (by omega), if_pos (by omega)]
  exact congrArg some (Nat.add_sub_cancel_left _ _)

/-- What has begun, as far as the rest of the character depends on it. -/
structure Awaits (begun : Begun) (value more low high : Nat) : Prop where
  value_eq : begun.value = value
  more_eq : begun.more = more
  low_eq : begun.low = low
  high_eq : begun.high = high

lemma lead_ascii (small : code < 0x80) : lead (ofNat code) = ([Char.ofNat code], none) := by
  have same : (ofNat code).toNat = code := toNat_ofNat_byte (by omega)
  simp only [lead, same]
  rw [if_pos small]

variable {byte : UInt8}

lemma Awaits.of_lead
    (shape : (lead byte).1 = [] ∧ (lead byte).2.map (fun begun =>
      (begun.value, begun.more, begun.low, begun.high)) = some (value, more, low, high)) :
    ∃ begun, lead byte = ([], some begun) ∧ Awaits begun value more low high := by
  obtain ⟨nothing, begins⟩ := shape
  obtain ⟨begun, found, fields⟩ := Option.map_eq_some_iff.mp begins
  simp only [Prod.mk.injEq] at fields
  obtain ⟨value_eq, more_eq, low_eq, high_eq⟩ := fields
  exact ⟨begun, Prod.ext nothing found, value_eq, more_eq, low_eq, high_eq⟩

lemma lead_two (high : Nat) (above : 2 ≤ high) (below : high < 32) :
    ∃ begun, lead (ofNat (0xC0 + high)) = ([], some begun) ∧ Awaits begun high 0 0x00 0x3F := by
  apply Awaits.of_lead
  decide +revert

/-- The range of the second byte of a character of three. -/
lemma lead_three (high : Nat) (below : high < 16) :
    ∃ begun, lead (ofNat (0xE0 + high)) = ([], some begun) ∧
      Awaits begun high 1 (if high = 0 then 0x20 else 0x00) (if high = 13 then 0x1F else 0x3F) := by
  apply Awaits.of_lead
  decide +revert

/-- The range of the second byte of a character of four. -/
lemma lead_four (high : Nat) (below : high < 5) :
    ∃ begun, lead (ofNat (0xF0 + high)) = ([], some begun) ∧
      Awaits begun high 2 (if high = 0 then 0x10 else 0x00) (if high = 4 then 0x0F else 0x3F) := by
  apply Awaits.of_lead
  decide +revert

/-- A continuation byte that is not the last. -/
lemma follow_more {begun : Begun} (next : Nat) (awaits : Awaits begun value (more + 1) low high)
    (small : next < 64) (above : low ≤ next) (below : next ≤ high) :
    ∃ later, follow begun (ofNat (0x80 + next)) = ([], some later) ∧
      Awaits later (value * 64 + next) more 0x00 0x3F := by
  obtain ⟨rfl, more_eq, rfl, rfl⟩ := awaits
  have further : begun.more ≠ 0 := by
    rw [more_eq]
    exact Nat.succ_ne_zero more
  rw [follow, bits_continuation small]
  dsimp only
  rw [dif_pos ⟨above, below⟩, dif_pos further]
  exact ⟨_, rfl, rfl, Nat.sub_eq_of_eq_add more_eq, rfl, rfl⟩

/-- The last continuation byte. -/
lemma follow_last {begun : Begun} (next : Nat) (awaits : Awaits begun value 0 low high)
    (small : next < 64) (above : low ≤ next) (below : next ≤ high) :
    follow begun (ofNat (0x80 + next)) = ([Char.ofNat (value * 64 + next)], none) := by
  obtain ⟨rfl, more_eq, rfl, rfl⟩ := awaits
  rw [follow, bits_continuation small]
  dsimp only
  rw [dif_pos ⟨above, below⟩, dif_neg (not_not_intro more_eq)]

lemma char_range (char : Char) :
    char.toNat < 0xD800 ∨ 0xDFFF < char.toNat ∧ char.toNat < 0x110000 :=
  char.valid

/-- The bytes of a character complete it and begin nothing. -/
lemma decode_encodeChar (char : Char) : out none (encodeChar char) = [char] ∧
      after none (encodeChar char) = none := by
  have whole : Char.ofNat char.toNat = char := Char.ofNat_toNat char
  have range := char_range char
  rw [encodeChar]
  generalize char.toNat = code at whole range ⊢
  split
  next small =>
    simp only [out, after, step]
    rw [lead_ascii small, whole]
    exact ⟨rfl, rfl⟩
  split
  next above small =>
    obtain ⟨begun, first, awaits⟩ := lead_two (code / 64) (by omega) (by omega)
    have second := follow_last (code % 64) awaits (by omega) (by omega) (by omega)
    have sum : code / 64 * 64 + code % 64 = code := by omega
    rw [sum, whole] at second
    simp only [out, after, step, first, second]
    exact ⟨rfl, trivial⟩
  split
  next above small =>
    obtain ⟨begun, first, awaits⟩ := lead_three (code / 4096) (by omega)
    obtain ⟨middle, second, later⟩ := follow_more (code / 64 % 64)
      awaits (by omega) (by split <;> omega) (by split <;> omega)
    have third := follow_last (code % 64) later (by omega) (by omega) (by omega)
    have sum : (code / 4096 * 64 + code / 64 % 64) * 64 + code % 64 = code := by omega
    rw [sum, whole] at third
    simp only [out, after, step, first, second, third]
    exact ⟨rfl, trivial⟩
  next above =>
    obtain ⟨begun, first, awaits⟩ := lead_four (code / 262144) (by omega)
    obtain ⟨middle, second, later⟩ := follow_more (code / 4096 % 64)
      awaits (by omega) (by split <;> omega) (by split <;> omega)
    obtain ⟨final, third, last⟩ := follow_more (code / 64 % 64)
      later (by omega) (by omega) (by omega)
    have fourth := follow_last (code % 64) last (by omega) (by omega) (by omega)
    have sum : ((code / 262144 * 64 + code / 4096 % 64) * 64 +
        code / 64 % 64) * 64 + code % 64 = code := by
      omega
    rw [sum, whole] at fourth
    simp only [out, after, step, first, second, third, fourth]
    exact ⟨rfl, trivial⟩

/-- Decoding gives an encoded text back. -/
lemma lossy_encode (text : List Char) : lossy (encode text) = text := by
  induction text with
  | nil => rfl
  | cons char rest ih =>
    obtain ⟨shown, nothing⟩ := decode_encodeChar char
    rw [lossy] at ih ⊢
    rw [encode, flatMap_cons, lossyFrom_append, shown, nothing]
    exact congrArg (char :: ·) ih

/-! ## Zeros at the end -/

/-- Take the zeros off the end. -/
def trimZeros (bytes : List UInt8) : List UInt8 :=
  bytes.rdropWhile (· == 0)

/-- A text that does not end with a NUL character. -/
def Unterminated (text : List Char) : Prop :=
  text.getLast? ≠ some '\x00'

lemma encodeChar_getLast {char : Char} (visible : char ≠ '\x00') :
    ∃ init last, encodeChar char = init ++ [last] ∧ last ≠ 0 := by
  have pos : char.toNat ≠ 0 := by
    intro zero
    apply visible
    rw [← Char.ofNat_toNat char, zero]
  have nonzero : ∀ {value : Nat}, value ≠ 0 → value < 256 → ofNat value ≠ 0 := by
    intro value pos small zero
    have same := toNat_ofNat_byte small
    rw [zero] at same
    exact pos same.symm
  rw [encodeChar]
  generalize char.toNat = code at pos ⊢
  split
  next => exact ⟨[], _, rfl, nonzero pos (by omega)⟩
  split
  next => exact ⟨[_], _, rfl, nonzero (by omega) (by omega)⟩
  split
  next => exact ⟨[_, _], _, rfl, nonzero (by omega) (by omega)⟩
  next => exact ⟨[_, _, _], _, rfl, nonzero (by omega) (by omega)⟩

variable {text : List Char}

/-- The bytes of a text that does not end with a NUL do not end with a zero. -/
lemma trimZeros_encode (clean : Unterminated text) : trimZeros (encode text) = encode text := by
  rcases eq_nil_or_concat text with rfl | ⟨init, char, rfl⟩
  · rfl
  · rw [Unterminated, concat_eq_append, List.getLast?_concat] at clean
    obtain ⟨before, last, bytes, nonzero⟩ :=
      encodeChar_getLast fun zero => clean (congrArg some zero)
    rw [concat_eq_append, encode, flatMap_append, flatMap_cons, flatMap_nil, append_nil, bytes,
      ← List.append_assoc, trimZeros]
    exact rdropWhile_concat_neg _ _ _ (by simpa using nonzero)

/-- A text whose last character is not NUL. -/
def Visible (text : List Char) : Prop :=
  ∃ init last, text = init ++ [last] ∧ last ≠ '\x00'

lemma visible_replacement : Visible [replacement] :=
  ⟨[], _, rfl, by decide⟩

/-- A byte other than zero is shown, and not as a NUL, at the start of a
character. -/
lemma lead_visible (nonzero : byte ≠ 0) : Visible ((lead byte).1 ++ flush (lead byte).2) := by
  have pos : byte.toNat ≠ 0 := fun zero => nonzero (UInt8.toNat.inj zero)
  rw [lead]
  split
  next small => exact ⟨[], _, rfl, ofNat_ne_nul pos (by omega)⟩
  repeat' split
  all_goals exact visible_replacement

/-- And behind a character that has begun. -/
lemma step_visible (state : Option Begun) (nonzero : byte ≠ 0) :
    Visible ((step state byte).1 ++ flush (step state byte).2) := by
  cases state with
  | none => exact lead_visible nonzero
  | some begun =>
    rw [step]
    rcases follow_cases begun byte with
      same | ⟨_, ⟨next, low, high, last, same⟩ | ⟨later, _, same⟩⟩
    · obtain ⟨init, last, shown, visible⟩ := lead_visible nonzero
      rw [same]
      exact ⟨replacement :: init, last, congrArg (replacement :: ·) shown, visible⟩
    · rw [same]
      exact ⟨[], _, rfl, begun.visible_next last low high⟩
    · rw [same]
      exact visible_replacement

/-- A text decoded from bytes without zeros at the end does not end with a
NUL. -/
lemma lossy_trimZeros_unterminated (bytes : List UInt8) :
    Unterminated (lossy (trimZeros bytes)) := by
  rcases eq_nil_or_concat (trimZeros bytes) with empty | ⟨init, byte, whole⟩
  · rw [empty]
    intro zero
    cases zero
  · have clean : ∀ filled, ¬ ((trimZeros bytes).getLast filled == 0) = true :=
      rdropWhile_last_not _ _
    rw [whole] at clean
    have nonzero : byte ≠ 0 := by simpa using clean
    rw [whole, concat_eq_append, lossy, lossyFrom_append]
    have shown : lossyFrom (after none init) [byte] = (step (after none init) byte).1 ++
          flush (step (after none init) byte).2 := by
      rw [lossyFrom, out, out, after, after, append_nil]
    obtain ⟨front, last, same, visible⟩ := step_visible (after none init) nonzero
    rw [shown, same, ← append_assoc, Unterminated, List.getLast?_concat]
    exact fun zero => visible (Option.some.inj zero)

end Joshua.Foundation.Utf8
