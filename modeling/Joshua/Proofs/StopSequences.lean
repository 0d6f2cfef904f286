/-
Module: Joshua.Proofs.StopSequences
Purpose: The response of a byte-level decoder is the text of all tokens,
  although only the last ones are decoded.  A response is free of stop
  sequences exactly if the stop sequence that ends a text for the first time
  reaches into every other one in that text.
Trusted boundary: none
-/
import Joshua.Model.StopSequences
import Mathlib.Algebra.BigOperators.Group.List.Basic

namespace Joshua
open Joshua.Foundation List

/-! ## The window -/

section Window
variable {bytes : Nat → List UInt8} {ids : List Nat} {text : DecodeText}

/-- Behind tokens the window holds the last of them. -/
structure WindowOf (bytes : Nat → List UInt8) (ids : List Nat) (text : DecodeText) : Prop where
  decoded : text.decodedIds = ids
  tail : text.byteWindow.tail = ids.drop (ids.length - byteWindowSize)
  shown : text.byteWindow.tailText = decodeIds bytes text.byteWindow.tail
  response : text.response = decodeIds bytes ids

/-- What the window's text grows by is what the text of all tokens grows by. -/
lemma decodeIds_window {token : Nat} {last : List Nat} (filled : ∀ id ∈ ids, bytes id ≠ [])
    (window : last = ids.drop (ids.length - byteWindowSize))
    (kept : decodeIds bytes last <+: decodeIds bytes (last ++ [token])) :
    decodeIds bytes ids ++
        (decodeIds bytes (last ++ [token])).drop (decodeIds bytes last).length =
      decodeIds bytes (ids ++ [token]) := by
  have whole : ids.take (ids.length - byteWindowSize) ++ last = ids := by
    rw [window, take_append_drop]
  have long : (ids.take (ids.length - byteWindowSize)).flatMap bytes = [] ∨
      3 ≤ (last.flatMap bytes).length := by
    rcases le_or_gt ids.length byteWindowSize with short | long
    · simp [Nat.sub_eq_zero_of_le short]
    · have each := length_le_sum_of_one_le (last.map fun id => (bytes id).length) <|
        forall_mem_map.mpr fun id mem =>
          length_pos_of_ne_nil (filled id (mem_of_mem_drop (window ▸ mem)))
      rw [length_map, window, length_drop, Nat.sub_sub_self long.le, ← window] at each
      rw [length_flatMap]
      exact .inr (le_trans (by decide) each)
  simp only [decodeIds, flatMap_append] at kept ⊢
  have grown := Utf8.lossy_window long kept
  rwa [← flatMap_append, whole] at grown

lemma WindowOf.append (window : WindowOf bytes ids text) (filled : ∀ id ∈ ids, bytes id ≠ [])
    (token : Nat) : WindowOf bytes (ids ++ [token])
      (appendToken (.byteLevel bytes) text token) := by
  obtain ⟨decoded, tail, shown, response⟩ := window
  have grown : (appendToken (.byteLevel bytes) text token).response =
      decodeIds bytes (ids ++ [token]) := by
    simp only [appendToken, ByteWindow.push, apply_ite Prod.fst, ite_self]
    rw [shown, response, decoded]
    split
    next kept => exact decodeIds_window filled tail ( isPrefixOf_iff_prefix.mp kept)
    next => rfl
  refine ⟨congrArg (· ++ [token]) decoded, ?_, ?_, grown⟩
  · simp only [appendToken, ByteWindow.push, tail, apply_ite Prod.snd, apply_ite ByteWindow.tail]
    rw [← drop_append_of_le_length (Nat.sub_le ..), drop_drop, length_drop, length_append,
      length_singleton]
    split <;> exact congrArg (drop · _) (by omega)
  · simp only [appendToken, ByteWindow.push]
    split <;> rfl

/-- After every token the response is the decoding of all tokens, although only
the window was decoded. -/
theorem byteWindow_response (bytes : Nat → List UInt8) (tokens : List Nat)
    (filled : ∀ token ∈ tokens, bytes token ≠ []) :
    (tokens.foldl (appendToken (.byteLevel bytes)) DecodeText.start).response =
      Utf8.lossy (tokens.flatMap bytes) := by
  suffices window : WindowOf bytes tokens
      (tokens.foldl (appendToken (.byteLevel bytes)) DecodeText.start) from window.response
  induction tokens using reverseRecOn with
  | nil => exact ⟨rfl, rfl, rfl, rfl⟩
  | append_singleton ids token ih =>
    have filled := (forall_mem_append.mp filled).1
    rw [foldl_concat]
    exact (ih filled).append filled token

/-- A character in two tokens. -/
theorem byteWindow_response_of_split : ([0xC3, 0xA9].foldl
      (appendToken (.byteLevel fun token => [UInt8.ofNat token])) DecodeText.start).response =
      Utf8.lossy [0xC3, 0xA9] :=
  byteWindow_response (fun token => [UInt8.ofNat token]) [0xC3, 0xA9] fun _ _ => cons_ne_nil _ _

end Window

/-! ## Stop sequences in the response -/

/-- A stop sequence ends the text. -/
def EndsIn (stops : List Text) (text : Text) : Prop :=
  ∃ stop ∈ stops, stop ≠ [] ∧ stop <:+ text

/-- The first listed of the stop sequences that end a text. -/
structure FirstListed (stops : List Text) (text cut : Text) : Prop where
  filled : cut ≠ []
  ends : cut <:+ text
  first : ∃ skipped others, stops = skipped ++ cut :: others ∧ ¬ EndsIn skipped text

section Stops
variable (decoder : TokenDecoder) (stops : List Text) (tokens : List Nat) {text cut : Text}

lemma FirstListed.endsIn (listed : FirstListed stops text cut) : EndsIn stops text := by
  obtain ⟨skipped, others, rfl, _⟩ := listed.first
  exact ⟨cut, by simp, listed.filled, listed.ends⟩

lemma findStop_eq_none : findStop stops text = none ↔ ¬ EndsIn stops text := by
  simp [findStop, EndsIn]

lemma findStop_eq_some : findStop stops text = some cut ↔ FirstListed stops text cut := by
  have same (skipped : List Text) : (∀ stop ∈ skipped,
      (!(!stop.isEmpty && stop.isSuffixOf text)) = true) ↔ ¬ EndsIn skipped text := by
    simp [EndsIn, or_iff_not_imp_left, ← isSuffixOf_iff_suffix]
  rw [findStop, find?_eq_some_iff_append]
  simp only [same]
  constructor
  · rintro ⟨ends, first⟩
    obtain ⟨filled, ends⟩ : cut ≠ [] ∧ cut <:+ text := by simpa using ends
    exact ⟨filled, ends, first⟩
  · rintro ⟨filled, ends, first⟩
    exact ⟨by simpa using ⟨filled, ends⟩, first⟩

/-- The text of the first tokens when nothing stops it. -/
def decoded (k : Nat) : DecodeText :=
  (tokens.take k).foldl (appendToken decoder) DecodeText.start

variable {stops tokens} {k : Nat}

/-- A token before which nothing stopped. -/
lemma emitTokens_at (lt : k < tokens.length) :
    let text := decoded decoder tokens (k + 1)
    emitTokens decoder ⟨stops, false, 0⟩ (decoded decoder tokens k) (tokens.drop k) =
      match findStop stops text.response with
      | some stop => ({ text with
          response := text.response.take (text.response.length - stop.length) }, some stop)
      | none => emitTokens decoder ⟨stops, false, 0⟩ text (tokens.drop (k + 1)) := by
  have next : appendToken decoder (decoded decoder tokens k) tokens[k] =
      decoded decoder tokens (k + 1) := by
    rw [decoded, decoded, take_succ_eq_append_getElem lt, foldl_concat]
  have counted : ¬ (decoded decoder tokens (k + 1)).nDecoded ≤ 0 := by
    rw [← next]
    cases decoder <;> exact Nat.not_succ_le_zero _
  rw [drop_eq_getElem_cons lt, emitTokens, emitToken, next]
  simp only [counted, if_false, checkStopSequences]
  cases findStop stops (decoded decoder tokens (k + 1)).response <;> rfl

/-- Up to the first text that a stop sequence ends, the loop decodes. -/
lemma emitTokens_calm (le : k ≤ tokens.length)
    (calm : ∀ i ≤ k, ¬ EndsIn stops (decoded decoder tokens i).response) :
    emitTokens decoder ⟨stops, false, 0⟩ DecodeText.start tokens =
      emitTokens decoder ⟨stops, false, 0⟩ (decoded decoder tokens k) (tokens.drop k) := by
  induction k with
  | zero => rfl
  | succ k ih =>
    rw [ih (Nat.le_of_succ_le le) fun i below => calm i (Nat.le_succ_of_le below),
      emitTokens_at decoder le, (findStop_eq_none stops).mpr (calm (k + 1) le_rfl)]

lemma isInfix_iff_of_cut {whole rest part : Text} (split : whole = rest ++ cut) :
    part <:+: rest ↔ ∃ before after, whole = before ++ part ++ after ∧
      cut.length ≤ after.length := by
  constructor
  · rintro ⟨before, after, same⟩
    exact ⟨before, after ++ cut, by simp [split, ← same], by simp⟩
  · rintro ⟨before, after, same, long⟩
    have ends : cut <:+ whole := ⟨rest, split.symm⟩
    obtain ⟨between, rfl⟩ := suffix_of_suffix_length_le ends ⟨before ++ part, same.symm⟩ long
    refine ⟨before, between, (append_left_inj cut).mp ?_⟩
    rw [← split, same, append_assoc _ between]

/-- Where a stop sequence ends a text for the first time, every occurrence of
one in that text ends inside the first listed of those that end it; and a text
that none ever ends has no occurrence. -/
def CutsAll (stops : List Text) (tokens : List Nat) : Prop :=
  (∀ k ≤ tokens.length, (∀ i < k, ¬ EndsIn stops (decoded decoder tokens i).response) →
    ∀ cut, FirstListed stops (decoded decoder tokens k).response cut → ∀ stop ∈ stops, stop ≠ [] →
      ∀ before after, (decoded decoder tokens k).response = before ++ stop ++ after →
        after.length < cut.length) ∧
  ((∀ k ≤ tokens.length, ¬ EndsIn stops (decoded decoder tokens k).response) →
    ∀ stop ∈ stops, stop ≠ [] → ¬ stop <:+: (decoded decoder tokens tokens.length).response)

variable (stops tokens)

/-- For every decoder, stop sequences and tokens: the response has no stop
sequence exactly if those in the texts of the tokens are cut off. -/
theorem response_without_stops_iff :
    (∀ stop ∈ stops, stop ≠ [] → ¬ stop <:+:
      (emitTokens decoder ⟨stops, false, 0⟩ DecodeText.start tokens).1.response) ↔
      CutsAll decoder stops tokens := by
  by_cases calm : ∀ k ≤ tokens.length, ¬ EndsIn stops (decoded decoder tokens k).response
  · rw [emitTokens_calm decoder le_rfl calm, drop_length, emitTokens, CutsAll,
      forall_prop_of_true calm]
    exact (and_iff_right fun k below _ cut listed =>
      absurd (listed.endsIn stops) (calm k below)).symm
  · classical
    have ended : ∃ k, k ≤ tokens.length ∧ EndsIn stops (decoded decoder tokens k).response := by
      simpa using calm
    obtain ⟨below, ends⟩ := Nat.find_spec ended
    have least : ∀ i < Nat.find ended, ¬ EndsIn stops (decoded decoder tokens i).response :=
      fun i lt found => Nat.find_min ended lt ⟨lt.le.trans below, found⟩
    generalize Nat.find ended = last at below ends least
    cases last with
    | zero =>
      obtain ⟨stop, _, filled, suffix⟩ := ends
      exact absurd (suffix_nil.mp suffix) filled
    | succ k =>
      cases found : findStop stops (decoded decoder tokens (k + 1)).response with
      | none => exact absurd ends ((findStop_eq_none stops).mp found)
      | some cut =>
        have listed := (findStop_eq_some stops).mp found
        obtain ⟨front, whole⟩ := listed.ends
        rw [emitTokens_calm decoder (Nat.le_of_succ_le below)
          fun i le => least i (Nat.lt_succ_of_le le), emitTokens_at decoder below, found]
        simp only [← whole, length_append, Nat.add_sub_cancel, take_left]
        constructor
        · refine fun free => ⟨fun j le early other first stop mem filled before after split => ?_,
            fun quiet => absurd ends (quiet _ below)⟩
          -- there is one first text that a stop sequence ends, and one that is found
          obtain rfl : j = k + 1 := by
            refine (lt_trichotomy j (k + 1)).elim (fun lt => ?_) (Or.resolve_right · fun gt => ?_)
            · exact absurd (first.endsIn stops) (least j lt)
            · exact early _ gt ends
          obtain rfl : other = cut :=
            Option.some.inj (((findStop_eq_some stops).mpr first).symm.trans found)
          by_contra long
          exact free stop mem filled
            ((isInfix_iff_of_cut whole.symm).mpr ⟨before, after, split, not_lt.mp long⟩)
        · intro cuts stop mem filled inside
          obtain ⟨before, after, split, long⟩ := (isInfix_iff_of_cut whole.symm).mp inside
          exact absurd (cuts.1 _ below least cut listed stop mem filled before after split)
            (not_lt.mpr long)

/-- The stop sequence comes in the middle of a token. -/
theorem response_keeps_stop : ['!'] <:+: (emitTokens (.single fun _ => ['a', '!', 'b'])
      ⟨[['!']], false, 0⟩ DecodeText.start [0]).1.response := by
  decide

end Stops

end Joshua
