/-
Module: Joshua.Proofs.ReasoningHarmony
Purpose: The harmony format of the reasoning splitter.  Which texts give the
  same reasoning and answer however they are cut into pieces.
Trusted boundary: none
-/
import Joshua.Proofs.ReasoningTags

namespace Joshua.Splitter
open Joshua.Foundation
open Harmony (endMarkers messageMarker)
open Split (addContent addReasoning append empty)

/-!
A reader that has the whole text looks for `<|message|>` first and asks only
then whether what it has looks like a header.  A reader that gets the text in
pieces has to ask before the marker is there.  The two agree on a header that
still looks like one when the last character of its marker is missing.

Where they do not agree, the piecewise reader may settle on plain text and
pass everything on.  That is the same as reading the messages only if reading
them changes nothing: every one of them is on a raw channel, and no unfinished
header is dropped at the end.
-/

/-- The text after the body that `text` starts with, if the body ends. -/
def afterBody (text : Text) : Option Text :=
  (cutFirst endMarkers text).map Cut.after

variable {text : Text} {header rest : Text}

lemma afterBody_length_le (found : afterBody text = some rest) : rest.length ≤ text.length := by
  simp only [afterBody, Option.map_eq_some_iff] at found
  obtain ⟨cut, found, rfl⟩ := found
  exact le_of_lt (cut_after_length_lt found)

/-- Reading the messages of `text`, from a header on, changes nothing. -/
def verbatim (text : Text) : Bool :=
  match found : find messageMarker text with
  | none => text.isEmpty || !looksLikeHeader text
  | some (header, rest) =>
    channelOf header == .raw &&
      match ended : afterBody rest with
      | none => true
      | some next =>
        have := find_after_length_lt found
        have := afterBody_length_le ended
        verbatim next
termination_by text.length

/-- Every cut of `text`, from a header on, is read as the whole is. -/
def cutSafe (text : Text) : Bool :=
  match found : find messageMarker text with
  | none => true
  | some (header, rest) =>
    if looksLikeHeader (header ++ messageMarker.dropLast) then
      match ended : afterBody rest with
      | none => true
      | some next =>
        have := find_after_length_lt found
        have := afterBody_length_le ended
        cutSafe next
    else
      verbatim text
termination_by text.length

/-- The condition on a body's text: what follows the body is read alike. -/
def bodyCutSafe (text : Text) : Bool :=
  (afterBody text).all cutSafe

/-- The condition on what is left of a text in a state of the splitter. -/
def stateCutSafe (state : State) (text : Text) : Bool :=
  match state with
  | .header => cutSafe text
  | .body _ => bodyCutSafe text
  | _ => true

lemma verbatim_of_none (missing : find messageMarker text = none) :
    verbatim text = (text.isEmpty || !looksLikeHeader text) := by
  rw [verbatim]
  split <;> simp_all

lemma verbatim_of_some (found : find messageMarker text = some (header, rest)) :
    verbatim text = (channelOf header == .raw && (afterBody rest).all verbatim) := by
  rw [verbatim]
  split
  · simp_all
  · rename_i otherHeader otherRest otherFound
    rw [found] at otherFound
    cases otherFound
    congr 1
    split <;> simp_all

lemma cutSafe_of_none (missing : find messageMarker text = none) : cutSafe text = true := by
  rw [cutSafe]
  split <;> simp_all

lemma cutSafe_of_some (found : find messageMarker text = some (header, rest)) : cutSafe text =
      if looksLikeHeader (header ++ messageMarker.dropLast) then
        bodyCutSafe rest
      else
        verbatim text := by
  rw [cutSafe]
  split
  · simp_all
  · rename_i otherHeader otherRest otherFound
    rw [found] at otherFound
    cases otherFound
    congr 1
    rw [bodyCutSafe]
    split <;> simp_all

variable {channel : Channel}

section Rounds

/-- What a header puts into the answer. -/
def headerOut (header : Text) : Split :=
  if channelOf header = .raw then
    ⟨[], header ++ messageMarker⟩
  else
    empty

/-- What a body that has ended leaves. -/
def closeBody (splitter : Splitter) (channel : Channel) (cut : Cut Char) : Splitter × Split :=
  let rest := { splitter with state := .header, buf := cut.after }
  match channel with
  | .analysis => emitReasoning rest empty cut.before true
  | .final => (rest, ⟨[], cut.before⟩)
  | .raw => (rest, ⟨[], cut.before ++ cut.marker⟩)

/-- What the settled part of a body that has not ended leaves. -/
def openBody (splitter : Splitter) (channel : Channel) (text : Text) : Splitter × Split :=
  let kept := { splitter with buf := held endMarkers text }
  let ready := settled endMarkers text
  match channel with
  | .analysis => emitReasoning kept empty ready false
  | .final => (kept, ⟨[], ready⟩)
  | .raw => (kept, ⟨[], ready⟩)

variable {ws text : Text} {begun flushing : Bool}

lemma round_header_some (found : find messageMarker text = some (header, rest)) :
    drainRound flushing (⟨.harmony, .header, text, ws, begun⟩, empty) =
      .next (⟨.harmony, .body (channelOf header), rest, ws, begun⟩, headerOut header) := by
  simp [drainRound, found, headerOut, addContent, empty]

lemma round_header_wait (missing : find messageMarker text = none)
    (looks : looksLikeHeader text = true) :
    drainRound flushing (⟨.harmony, .header, text, ws, begun⟩, empty) =
      .stop (⟨.harmony, .header, text, ws, begun⟩, empty) := by
  simp [drainRound, missing, looks]

lemma round_header_plain (missing : find messageMarker text = none)
    (looks : looksLikeHeader text = false) :
    drainRound flushing (⟨.harmony, .header, text, ws, begun⟩, empty) =
      .next (⟨.harmony, .content false, text, ws, begun⟩, empty) := by
  simp [drainRound, missing, looks]

lemma round_body_some {cut : Cut Char} (found : cutFirst endMarkers text = some cut) :
    drainRound flushing (⟨.harmony, .body channel, text, ws, begun⟩, empty) =
      let closed := closeBody ⟨.harmony, .body channel, text, ws, begun⟩ channel cut
      .next (closed.1, closed.2) := by
  cases channel with
  | analysis => simp only [drainRound, found, closeBody, emitReasoning_eq]
  | final | raw => simp [drainRound, found, closeBody, addContent, empty]

lemma round_body_none (missing : cutFirst endMarkers text = none) : drainRound false
        (⟨.harmony, .body channel, text, ws, begun⟩, empty) =
      .stop (openBody ⟨.harmony, .body channel, text, ws, begun⟩ channel text) := by
  cases channel <;> simp [drainRound, missing, openBody, addContent, empty]

lemma round_body_flush (missing : cutFirst endMarkers text = none) : drainRound true
        (⟨.harmony, .body channel, text, ws, begun⟩, empty) =
      .stop (⟨.harmony, .body channel, text, ws, begun⟩, empty) := by
  simp [drainRound, missing]

end Rounds

section Whole

/-- What the buffer comes to when nothing follows it. -/
def whole (splitter : Splitter) : Split :=
  let result := drain false splitter empty
  result.2.append (finish result.1)

variable {splitter later : Splitter}

lemma feed_single (undecided : splitter.isPlain = false) (text : Text) :
    feed splitter [text] = whole { splitter with buf := splitter.buf ++ text } := by
  simp [feed, push, undecided, whole]

section
variable {out : Split} (step : drainRound false (splitter, empty) = .next (later, out))
include step

lemma drain_next : drain false splitter empty = withEarlier out (drain false later empty) := by
  have shifted := drain_append false later out empty
  rw [append_empty] at shifted
  rw [drain, Loop.run_next _ step, ← drain, shifted]

lemma whole_next : whole splitter = out.append (whole later) := by
  rw [whole, drain_next step]
  exact append_assoc _ _ _

end

variable {ws text : Text} {begun : Bool}

lemma finish_plain : finish ⟨.harmony, .content false, [], ws, begun⟩ = empty := by
  have step : drainRound true (⟨.harmony, .content false, [], ws, begun⟩, empty) =
      .stop (⟨.harmony, .content false, [], ws, begun⟩, empty) := rfl
  rw [finish, drain, Loop.run_stop _ step]
  rfl

lemma drain_plain : drain false ⟨.harmony, .content false, text, ws, begun⟩ empty =
      (⟨.harmony, .content false, [], ws, begun⟩, ⟨[], text⟩) :=
  Loop.run_stop _ rfl

lemma whole_plain : whole ⟨.harmony, .content false, text, ws, begun⟩ = ⟨[], text⟩ := by
  rw [whole, drain_plain]
  dsimp only
  rw [finish_plain, append_empty]

lemma feed_plain (pieces : List Text) :
    feed ⟨.harmony, .content false, [], ws, begun⟩ pieces = ⟨[], pieces.flatten⟩ := by
  induction pieces with
  | nil => exact finish_plain
  | cons piece pieces ih =>
    have pushed : push ⟨.harmony, .content false, [], ws, begun⟩ piece =
        (⟨.harmony, .content false, [], ws, begun⟩, ⟨[], piece⟩) := rfl
    rw [feed, pushed]
    dsimp only
    rw [ih]
    simp [append]

lemma whole_header_some (found : find messageMarker text = some (header, rest)) :
    whole ⟨.harmony, .header, text, ws, begun⟩ = (headerOut header).append
        (whole ⟨.harmony, .body (channelOf header), rest, ws, begun⟩) :=
  whole_next (round_header_some found)

lemma whole_header_none (missing : find messageMarker text = none) :
    whole ⟨.harmony, .header, text, ws, begun⟩ =
      if looksLikeHeader text then empty else ⟨[], text⟩ := by
  cases looks : looksLikeHeader text with
  | true =>
    rw [whole, drain, Loop.run_stop _ (round_header_wait missing looks)]
    dsimp only
    rw [finish, drain, Loop.run_stop _ (round_header_wait missing looks)]
    simp [flush, looks, append, empty]
  | false =>
    rw [whole_next (round_header_plain missing looks), whole_plain]
    rfl

lemma whole_body_some {cut : Cut Char} (found : cutFirst endMarkers text = some cut) :
    whole ⟨.harmony, .body channel, text, ws, begun⟩ =
      let closed := closeBody ⟨.harmony, .body channel, text, ws, begun⟩ channel cut
      closed.2.append (whole closed.1) :=
  whole_next (round_body_some found)

/-- What a body without an end comes to: that of one that ends without a
marker. -/
def unendedBody (splitter : Splitter) (channel : Channel) (text : Text) : Split :=
  (closeBody splitter channel ⟨text, [], []⟩).2

lemma cutFirst_held_none {markers : List Text} (missing : cutFirst markers text = none) :
    cutFirst markers (held markers text) = none := by
  have shifted := cutFirst_hold missing []
  rw [List.append_nil, List.append_nil, missing] at shifted
  simpa using shifted.symm

/-- A body in progress: what it has emitted is on record, and only reasoning
leaves whitespace pending. -/
structure BodyOpen (channel : Channel) (pendingWs : Text) (started : Bool) : Prop where
  emitted : ∃ opened passed, Emitted opened passed pendingWs started
  idle : channel ≠ .analysis → pendingWs = []

lemma BodyOpen.fresh (channel : Channel) (begun : Bool) : BodyOpen channel [] begun where
  emitted := ⟨begun, [], .nil begun⟩
  idle := fun _ => rfl

section
variable (bodyOpen : BodyOpen channel ws begun)
include bodyOpen

/-- A body that ended leaves a header to read, with nothing pending. -/
lemma closeBody_header (buf : Text) (cut : Cut Char) :
    ∃ startedLater, (closeBody ⟨.harmony, .body channel, buf, ws, begun⟩ channel cut).1 =
        ⟨.harmony, .header, cut.after, [], startedLater⟩ := by
  cases channel with
  | analysis => exact ⟨_, congrArg Prod.fst (emitReasoning_eq _ empty cut.before true)⟩
  | final | raw =>
    obtain rfl := bodyOpen.idle (by simp)
    exact ⟨_, rfl⟩

/-- A body that has not ended stays open. -/
lemma openBody_body (buf text : Text) : ∃ pendingLater startedLater,
      (openBody ⟨.harmony, .body channel, buf, ws, begun⟩ channel text).1 =
        ⟨.harmony, .body channel, held endMarkers text, pendingLater, startedLater⟩ ∧
      BodyOpen channel pendingLater startedLater := by
  cases channel with
  | analysis =>
    obtain ⟨opened, passed, emitted⟩ := bodyOpen.emitted
    obtain ⟨delta, emission, _⟩ := emitReasoning_spec
      ⟨.harmony, .body .analysis, held endMarkers text, ws, begun⟩
      emitted empty (settled endMarkers text) false
    refine ⟨_, _, congrArg Prod.fst emission,
      ⟨opened, passed ++ settled endMarkers text, rfl, rfl⟩, ?_⟩
    exact fun different => absurd rfl different
  | final | raw => exact ⟨_, _, rfl, bodyOpen⟩

lemma whole_body_none (missing : cutFirst endMarkers text = none) :
    whole ⟨.harmony, .body channel, text, ws, begun⟩ =
      unendedBody ⟨.harmony, .body channel, [], ws, begun⟩ channel text := by
  have joined := settled_append_held endMarkers text
  rw [whole, drain, Loop.run_stop _ (round_body_none missing)]
  cases channel with
  | analysis =>
    obtain ⟨opened, passed, emitted⟩ := bodyOpen.emitted
    have twice := emitReasoning_emitReasoning ⟨.harmony, .header, [], ws, begun⟩ emitted
      empty (settled endMarkers text) (held endMarkers text) true
    rw [joined] at twice
    simp only [openBody, unendedBody, closeBody, ← twice]
    simp only [emitReasoning_eq]
    rw [finish, drain, Loop.run_stop _ (round_body_flush (cutFirst_held_none missing))]
    simp [flush, emitReasoning_eq, append, addReasoning, empty]
  | final | raw =>
    simp only [openBody]
    rw [finish, drain, Loop.run_stop _ (round_body_flush (cutFirst_held_none missing))]
    simp [flush, unendedBody, closeBody, append, addContent, empty, joined]

end

variable (text) in
/-- Closing a body whose first part has been emitted. -/
lemma openBody_closeBody (bodyOpen : BodyOpen channel ws begun)
    (buf : Text) (cut : Cut Char) :
    let opened := openBody ⟨.harmony, .body channel, text, ws, begun⟩ channel text
    withEarlier opened.2 (closeBody { opened.1 with buf := buf } channel cut) =
      closeBody ⟨.harmony, .body channel, text, ws, begun⟩ channel
        (cut.prepend (settled endMarkers text)) := by
  cases channel with
  | analysis =>
    obtain ⟨opened, passed, emitted⟩ := bodyOpen.emitted
    have twice := emitReasoning_emitReasoning
      ⟨.harmony, .header, cut.after, ws, begun⟩ emitted
      empty (settled endMarkers text) cut.before true
    simp only [closeBody, Cut.prepend, ← twice]
    simp [openBody, emitReasoning_eq, withEarlier, append, addReasoning, empty]
  | final | raw => simp [openBody, closeBody, withEarlier, append, Cut.prepend]

/-- Emitting the settled part of a body early changes nothing. -/
lemma whole_openBody (bodyOpen : BodyOpen channel ws begun)
    (missing : cutFirst endMarkers text = none) (tail : Text) :
    let opened := openBody ⟨.harmony, .body channel, text, ws, begun⟩ channel text
    opened.2.append
        (whole { opened.1 with
          buf := held endMarkers text ++ tail }) =
      whole ⟨.harmony, .body channel, text ++ tail, ws, begun⟩ := by
  obtain ⟨pendingLater, startedLater, stays, bodyLater⟩ := openBody_body bodyOpen text text
  have shifted := cutFirst_hold missing tail
  have closing := openBody_closeBody text bodyOpen (held endMarkers text ++ tail)
  dsimp only at closing ⊢
  rw [stays] at closing ⊢
  cases found : cutFirst endMarkers (held endMarkers text ++ tail) with
  | some cut =>
    rw [found, Option.map_some] at shifted
    have state := congrArg Prod.fst (closing cut)
    have out := congrArg Prod.snd (closing cut)
    rw [whole_body_some found, whole_body_some shifted]
    dsimp only [withEarlier] at state out ⊢
    rw [← append_assoc, out, state]
    rfl
  | none =>
    rw [found, Option.map_none] at shifted
    rw [whole_body_none bodyLater found, whole_body_none bodyOpen shifted]
    refine (congrArg Prod.snd (closing ⟨held endMarkers text ++ tail, [], []⟩)).trans ?_
    rw [Cut.prepend, ← List.append_assoc, settled_append_held]
    rfl

end Whole

section Markers
variable {pattern text before after first second : Text}

lemma find_shorten (found : find pattern (before ++ (pattern ++ (first ++ second))) =
      some (before, first ++ second)) :
    find pattern (before ++ (pattern ++ first)) = some (before, first) := by
  simp only [find, Option.map_eq_some_iff] at found
  obtain ⟨⟨cutBefore, marker, after⟩, found, parts⟩ := found
  have same := List.mem_singleton.mp (cutFirst_marker_mem found)
  simp only [Prod.mk.injEq] at parts
  dsimp only at same
  obtain ⟨rfl, rfl⟩ := parts
  subst same
  rw [find, cutFirst_shorten found]
  rfl

/-- A header that is still arriving looks like one as long as it can become
one. -/
lemma looksLikeHeader_of_append (looks : looksLikeHeader (first ++ second) = true) :
    looksLikeHeader first = true := by
  have start : ∀ marker : Text, trimStart first ≠ [] → (marker <+: trimStart first ++ second ∨
        trimStart first ++ second <+: marker) →
      (marker <+: trimStart first ∨ trimStart first <+: marker) := by
    intro marker filled choice
    rcases choice with begins | within
    · rcases prefix_append_cases begins with inside | ⟨covers, _⟩
      · exact .inl inside
      · exact .inr covers
    · exact .inr ((List.prefix_append _ _).trans within)
  by_cases blank : trimStart first = []
  · simp [looksLikeHeader, blank]
  · simp only [looksLikeHeader, trimStart_append_of_ne_nil blank,
      Bool.or_eq_true, List.isPrefixOf_iff_prefix, List.isEmpty_iff]
      at looks ⊢
    have begun := start Harmony.startMarker blank
    have channelled := start Harmony.channelMarker blank
    rcases looks with (((empty | begins) | begins) | within) | within
    · exact absurd (List.append_eq_nil_iff.mp empty).1 blank
    · rcases begun (.inl begins) with one | one <;> simp [one]
    · rcases channelled (.inl begins) with one | one <;> simp [one]
    · rcases begun (.inr within) with one | one <;> simp [one]
    · rcases channelled (.inr within) with one | one <;> simp [one]

lemma endMarkers_apart : Apart endMarkers := by
  decide +kernel

end Markers

end Joshua.Splitter
