/-
Module: Joshua.Proofs.ReasoningHarmonyCuts
Purpose: The texts of the harmony format that give the same reasoning and
  answer in any pieces are those that satisfy the condition of the previous
  module, and no others.
Trusted boundary: none
-/
import Joshua.Proofs.ReasoningHarmony

namespace Joshua.Splitter
open Joshua.Foundation List
open Harmony (endMarkers messageMarker)

variable {rest header : Text}

section Verbatim
variable {text : Text}

lemma afterBody_eq_some (ended : afterBody text = some rest) :
    ∃ cut, cutFirst endMarkers text = some cut ∧ cut.after = rest := by
  simpa [afterBody] using ended

lemma afterBody_length_lt {whole : Text} (found : find messageMarker whole = some (header, text))
    (ended : afterBody text = some rest) : rest.length < whole.length :=
  lt_of_le_of_lt (afterBody_length_le ended) (find_after_length_lt found)

/-- A text that reading does not change is read alike in any pieces. -/
lemma cutSafe_of_verbatim (same : verbatim text = true) : cutSafe text = true := by
  generalize size : text.length = length
  induction length using Nat.strongRecOn generalizing text with
  | ind length ih =>
    cases found : find messageMarker text with
    | none => exact cutSafe_of_none found
    | some parts =>
      obtain ⟨header, rest⟩ := parts
      rw [cutSafe_of_some found]
      split
      · rw [verbatim_of_some found, Bool.and_eq_true] at same
        rw [bodyCutSafe, Option.all_eq_true]
        intro next ended
        have nextSame := (Option.all_eq_true _ _).mp same.2 next ended
        have shorter := afterBody_length_lt found ended
        exact ih next.length (size ▸ shorter) nextSame rfl
      · exact same

/-- What follows the header of such a text is a body of such a text. -/
lemma bodyCutSafe_of_cutSafe (found : find messageMarker text = some (header, rest))
    (safe : cutSafe text = true) : bodyCutSafe rest = true := by
  rw [cutSafe_of_some found] at safe
  split at safe
  · exact safe
  · rw [verbatim_of_some found, Bool.and_eq_true] at safe
    rw [bodyCutSafe, Option.all_eq_true]
    intro next ended
    exact cutSafe_of_verbatim ((Option.all_eq_true _ _).mp safe.2 next ended)

/-!
Reading never adds text.  A header that is not passed on is lost, so a text
that comes out unchanged had none.
-/

/-- The length of everything produced. -/
def outLength (out : Split) : Nat :=
  out.reasoning.length + out.content.length

lemma outLength_append (first second : Split) :
    outLength (first.append second) = outLength first + outLength second := by
  simp only [outLength, Split.append, length_append]
  omega

lemma emittedText_length_le (ws : Text) (begun : Bool) (text : Text) :
    (emittedText ws begun text).length ≤ ws.length + text.length := by
  have trimmed : (trimStart text).length ≤ text.length := (dropWhile_suffix _).length_le
  have ended : ∀ shown : Text, (trimEnd shown).length ≤ shown.length :=
    fun shown => ( List.rdropWhile_prefix _ shown).length_le
  have shown : (if begun then text else trimStart text).length ≤ text.length := by
    cases begun with
    | true => exact le_rfl
    | false => exact trimmed
  unfold emittedText
  dsimp only
  generalize (if begun then text else trimStart text) = visible at shown ⊢
  by_cases blank : (trimEnd visible).isEmpty = true
  · rw [if_pos blank]
    exact Nat.zero_le _
  · rw [if_neg blank, length_append]
    exact Nat.add_le_add_left ((ended visible).trans shown) _

lemma outLength_closeBody (splitter : Splitter) (channel : Channel) (cut : Cut Char) :
    outLength (closeBody splitter channel cut).2 ≤
      splitter.pendingWs.length + cut.before.length + cut.marker.length := by
  cases channel with
  | analysis =>
    have bounded := emittedText_length_le splitter.pendingWs splitter.reasoningStarted cut.before
    simp only [closeBody, emitReasoning_eq, outLength, Split.addReasoning,
      Split.empty, nil_append, length_nil]
    omega
  | final =>
    simp only [closeBody, outLength, length_nil]
    omega
  | raw =>
    simp only [closeBody, outLength, length_nil, length_append]
    omega

lemma outLength_whole_le (length : Nat) : (∀ text begun, text.length = length →
      outLength (whole ⟨.harmony, .header, text, [], begun⟩) ≤ length) ∧
    (∀ text channel ws begun, text.length = length → BodyOpen channel ws begun →
      outLength (whole ⟨.harmony, .body channel, text, ws, begun⟩) ≤ ws.length + length) := by
  induction length using Nat.strongRecOn with
  | ind length ih =>
    constructor
    · intro text begun size
      cases found : find messageMarker text with
      | none =>
        rw [whole_header_none found]
        split
        · exact Nat.zero_le _
        · simp [outLength, size]
      | some parts =>
        obtain ⟨header, rest⟩ := parts
        have lengths := find_length found
        have shorter := find_after_length_lt found
        have body := (ih rest.length (size ▸ shorter)).2 rest (channelOf header) [] begun rfl
          (.fresh _ _)
        have passedOn : outLength (headerOut header) ≤ header.length + messageMarker.length := by
          unfold headerOut
          split
          · simp [outLength]
          · exact Nat.zero_le _
        rw [whole_header_some found, outLength_append]
        simp only [length_nil] at body
        omega
    · intro text channel ws begun size bodyOpen
      cases ended : cutFirst endMarkers text with
      | none =>
        rw [whole_body_none bodyOpen ended, ← size]
        exact outLength_closeBody _ channel ⟨text, [], []⟩
      | some cut =>
        have rebuilt := congrArg List.length (cutFirst_rebuild ended)
        have pos := endMarkers_length_pos (cutFirst_marker_mem ended)
        simp only [length_append] at rebuilt
        obtain ⟨startedLater, closed⟩ := closeBody_header bodyOpen text cut
        have out := outLength_closeBody ⟨.harmony, .body channel, text, ws, begun⟩ channel cut
        have next := (ih cut.after.length (by omega)).1 cut.after startedLater rfl
        rw [whole_body_some ended]
        dsimp only at out ⊢
        rw [outLength_append, closed]
        omega

/-- Exactly such texts are passed on as they are. -/
lemma whole_eq_iff (begun : Bool) :
    whole ⟨.harmony, .header, text, [], begun⟩ = ⟨[], text⟩ ↔ verbatim text = true := by
  generalize size : text.length = length
  induction length using Nat.strongRecOn generalizing text with
  | ind length ih =>
    cases found : find messageMarker text with
    | none =>
      rw [whole_header_none found, verbatim_of_none found]
      cases looksLikeHeader text with
      | true =>
        rw [Bool.not_true, Bool.or_false, List.isEmpty_iff, @eq_comm _ text]
        simp [Split.empty]
      | false => simp
    | some parts =>
      obtain ⟨header, rest⟩ := parts
      have shape := find_rebuild found
      rw [whole_header_some found, verbatim_of_some found, Bool.and_eq_true, beq_iff_eq, headerOut]
      by_cases raw : channelOf header = .raw
      · rw [if_pos raw, raw]
        cases ended : cutFirst endMarkers rest with
        | none =>
          rw [whole_body_none (.fresh .raw begun) ended]
          simp [afterBody, ended, unendedBody, closeBody, Split.append, shape]
        | some cut =>
          have after : afterBody rest = some cut.after := by simp [afterBody, ended]
          have next := ih cut.after.length (size ▸ afterBody_length_lt found after) rfl
          rw [whole_body_some ended, after, Option.all_some, ← next, shape, cutFirst_rebuild ended]
          simp only [closeBody]
          generalize whole ⟨.harmony, .header, cut.after, [], begun⟩ = result
          obtain ⟨reasoning, content⟩ := result
          simp [Split.append]
      · have bounded := (outLength_whole_le rest.length).2 rest
          (channelOf header) [] begun rfl (.fresh _ _)
        have shorter := find_after_length_lt found
        refine iff_of_false (fun same => ?_) (fun both => raw both.1)
        rw [if_neg raw] at same
        have total := congrArg outLength same
        rw [outLength_append] at total
        simp only [outLength, Split.empty, length_nil] at *
        omega

end Verbatim

variable {splitter : Splitter} {later : Splitter} {out : Split}

section Merge

/-- The states a piece can be added to. -/
inductive Live : Splitter → Prop
  | header (text : Text) (started : Bool) : Live ⟨.harmony, .header, text, [], started⟩
  | body {channel : Channel} {pendingWs : Text} {started : Bool}
      (text : Text) (bodyOpen : BodyOpen channel pendingWs started) :
      Live ⟨.harmony, .body channel, text, pendingWs, started⟩

/-- The states a drain ends in. -/
inductive Drained : Splitter → Prop
  | header {text : Text} (started : Bool)
      (missing : find messageMarker text = none)
      (looks : looksLikeHeader text = true) :
      Drained ⟨.harmony, .header, text, [], started⟩
  | body {channel : Channel} {text pendingWs : Text} {started : Bool}
      (bodyOpen : BodyOpen channel pendingWs started)
      (missing : cutFirst endMarkers text = none) :
      Drained ⟨.harmony, .body channel, text, pendingWs, started⟩
  | plain (started : Bool) : Drained ⟨.harmony, .content false, [], [], started⟩

/-- The same splitter with more text in its buffer. -/
def withMore (splitter : Splitter) (more : Text) : Splitter :=
  { splitter with buf := splitter.buf ++ more }

/-- What the buffer and one later piece come to. -/
def twoPieces (splitter : Splitter) (second : Text) : Split :=
  let result := drain false splitter Split.empty
  result.2.append (whole (withMore result.1 second))

/-- Draining early and draining the longer text later come to the same. -/
structure Merges (splitter : Splitter) (tail : Text) : Prop where
  safe :
    let rest := (drain false splitter Split.empty).1
    stateCutSafe rest.state (rest.buf ++ tail) = true
  total : twoPieces splitter tail = whole (withMore splitter tail)

variable {tail text : Text}

section
variable (step : drainRound false (splitter, Split.empty) = .next (later, out))
include step

lemma twoPieces_next (second : Text) :
    twoPieces splitter second = out.append (twoPieces later second) := by
  rw [twoPieces, drain_next step]
  exact append_assoc _ _ _

/-- One round that both readers make. -/
lemma Merges.next (longer : drainRound false (withMore splitter tail, Split.empty) =
      .next (withMore later tail, out))
    (merges : Merges later tail) : Merges splitter tail := by
  refine ⟨?_, ?_⟩
  · rw [drain_next step]
    exact merges.safe
  · rw [twoPieces_next step, whole_next longer, merges.total]

end

lemma closeBody_extend (splitter : Splitter) (channel : Channel)
    (cut : Cut Char) (buf tail : Text) :
    closeBody { splitter with buf := buf } channel (cut.extend tail) =
      (withMore (closeBody splitter channel cut).1 tail, (closeBody splitter channel cut).2) := by
  cases channel <;> simp [closeBody, emitReasoning_eq, withMore, Cut.extend]

/-- The header that a piecewise reader has seen so far is part of the header
a whole reader sees. -/
lemma header_within {first : Text} (missing : find messageMarker first = none)
    (found : find messageMarker (first ++ tail) = some (header, rest)) :
    first <+: header ++ messageMarker.dropLast := by
  have rebuilt := find_rebuild found
  have marker : messageMarker = messageMarker.dropLast ++ ['>'] := rfl
  have partLength : messageMarker.dropLast.length = 10 := rfl
  have ahead : first <+: first ++ tail := List.prefix_append _ _
  rcases lt_or_ge (header ++ messageMarker.dropLast).length first.length with longer | shorter
  · -- the whole marker would already be there
    exfalso
    have covers : header ++ messageMarker <+: first := by
      refine prefix_of_prefix_length_le ⟨rest, ?_⟩ ahead ?_
      · rw [rebuilt, List.append_assoc]
      · have size : messageMarker.length = 11 := rfl
        rw [length_append] at longer ⊢
        omega
    obtain ⟨extra, shape⟩ := covers
    have whole : first ++ tail = header ++ (messageMarker ++ (extra ++ tail)) := by
      rw [← shape]
      simp
    have same : rest = extra ++ tail := by
      rw [whole] at rebuilt
      exact (append_cancel_left (append_cancel_left rebuilt)).symm
    rw [whole, same] at found
    have early := find_shorten found
    rw [← List.append_assoc, shape, missing] at early
    cases early
  · refine prefix_of_prefix_length_le ahead ?_ shorter
    refine ⟨['>'] ++ rest, ?_⟩
    rw [rebuilt, marker]
    simp

/-- Settling on plain text early is harmless as long as the condition
holds. -/
lemma plain_merge (missing : find messageMarker text = none) (looks : looksLikeHeader text = false)
    (safe : cutSafe (text ++ tail) = true) (begun : Bool) :
    whole ⟨.harmony, .header, text ++ tail, [], begun⟩ = (⟨[], text⟩ : Split).append
        (whole ⟨.harmony, .content false, tail, [], begun⟩) := by
  have later : ∀ {longer : Text}, text <+: longer → looksLikeHeader longer = false := by
    rintro _ ⟨more, rfl⟩
    exact Bool.eq_false_iff.mpr fun both =>
      absurd (looksLikeHeader_of_append both) (by simp [looks])
  rw [whole_plain]
  cases found : find messageMarker (text ++ tail) with
  | none =>
    have longer := later ⟨tail, rfl⟩
    rw [whole_header_none found, longer]
    simp [Split.append]
  | some parts =>
    obtain ⟨header, rest⟩ := parts
    have early := later (header_within missing found)
    rw [cutSafe_of_some found, early] at safe
    rw [(whole_eq_iff begun).mpr (by simpa using safe)]
    simp [Split.append]

/-- Draining early is harmless as long as the condition holds. -/
lemma drain_spec (live : Live splitter) (tail : Text) :
    Drained (drain false splitter Split.empty).1 ∧
      (stateCutSafe splitter.state (splitter.buf ++ tail) = true → Merges splitter tail) := by
  generalize size : splitter.buf.length = length
  induction length using Nat.strongRecOn generalizing splitter with
  | ind length ih =>
    cases live with
    | header text begun =>
      cases found : find messageMarker text with
      | some parts =>
        obtain ⟨header, rest⟩ := parts
        have foundLonger := find_append found tail
        have later := ih rest.length (size ▸ find_after_length_lt found)
          (.body rest (.fresh (channelOf header) begun)) rfl
        rw [drain_next (round_header_some found)]
        refine ⟨later.1, fun safe => ?_⟩
        exact Merges.next (round_header_some found) (round_header_some foundLonger)
          (later.2 (bodyCutSafe_of_cutSafe foundLonger safe))
      | none =>
        cases looks : looksLikeHeader text with
        | true =>
          have drained : drain false ⟨.harmony, .header, text, [], begun⟩ Split.empty =
              _ := Loop.run_stop _ (round_header_wait found looks)
          refine ⟨?_, fun safe => ⟨?_, ?_⟩⟩ <;> simp only [twoPieces, drained]
          · exact .header begun found looks
          · exact safe
          · rfl
        | false =>
          have step : drainRound false (⟨.harmony, .header, text, [], begun⟩, Split.empty) = _ :=
            round_header_plain found looks
          have drained := drain_next step
          rw [drain_plain] at drained
          refine ⟨?_, fun safe => ⟨?_, ?_⟩⟩ <;> simp only [twoPieces, drained]
          · exact .plain begun
          · rfl
          · exact (plain_merge found looks safe begun).symm
    | body text bodyOpen =>
      rename_i channel ws begun
      cases found : cutFirst endMarkers text with
      | some cut =>
        have foundLonger := cutFirst_append endMarkers_apart found tail
        have shorter : cut.after.length < length := size ▸ cut_after_length_lt found
        obtain ⟨startedLater, closed⟩ := closeBody_header bodyOpen text cut
        have later := ih cut.after.length shorter (.header cut.after startedLater) rfl
        rw [← closed] at later
        rw [drain_next (round_body_some found)]
        refine ⟨later.1, fun safe => ?_⟩
        have restSafe : cutSafe (cut.after ++ tail) = true := by
          change bodyCutSafe (text ++ tail) = true at safe
          simpa [bodyCutSafe, afterBody, foundLonger, Cut.extend] using safe
        have longer : drainRound false
            (⟨.harmony, .body channel, text ++ tail, ws, begun⟩, Split.empty) = _ :=
          round_body_some foundLonger
        have extended := closeBody_extend
          ⟨.harmony, .body channel, text, ws, begun⟩ channel
          cut (text ++ tail) tail
        dsimp only at extended
        rw [extended] at longer
        refine Merges.next (round_body_some found) longer (later.2 ?_)
        rw [closed]
        exact restSafe
      | none =>
        have drained : drain false ⟨.harmony, .body channel, text, ws, begun⟩
            Split.empty = _ := Loop.run_stop _ (round_body_none found)
        obtain ⟨pendingLater, startedLater, stays, bodyLater⟩ := openBody_body bodyOpen text text
        have total := whole_openBody bodyOpen found tail
        have sameAfter : afterBody (text ++ tail) = afterBody (held endMarkers text ++ tail) := by
          rw [afterBody, cutFirst_hold found, Option.map_map]
          rfl
        refine ⟨?_, fun safe => ⟨?_, ?_⟩⟩
        · rw [drained, stays]
          exact .body bodyLater (cutFirst_held_none found)
        · rw [drained, stays]
          change bodyCutSafe _ = true
          rw [bodyCutSafe, ← sameAfter]
          exact safe
        · rw [twoPieces, drained]
          dsimp only [withMore] at total ⊢
          rw [stays] at total ⊢
          exact total

/-- At the end of the text, draining once more changes nothing. -/
lemma Drained.finish_eq_whole (drained : Drained splitter) : finish splitter = whole splitter := by
  cases drained with
  | header begun missing looks =>
    rw [whole_header_none missing, looks, finish, drain,
      Loop.run_stop _ (round_header_wait missing looks)]
    simp [flush, looks]
  | body bodyOpen missing =>
    rename_i channel text ws begun
    rw [whole_body_none bodyOpen missing, finish, drain, Loop.run_stop _ (round_body_flush missing)]
    cases channel <;>
      simp [flush, unendedBody, closeBody, emitReasoning_eq, Split.addContent, Split.empty]
  | plain begun =>
    rw [whole_plain, finish_plain]
    rfl

lemma withMore_nil (splitter : Splitter) : withMore splitter [] = splitter := by
  simp [withMore]

lemma withMore_append (splitter : Splitter) (first second : Text) :
    withMore (withMore splitter first) second = withMore splitter (first ++ second) := by
  simp [withMore]

lemma push_of_undecided (undecided : splitter.isPlain = false) (piece : Text) :
    push splitter piece = drain false (withMore splitter piece) Split.empty := by
  simp [push, undecided, withMore]

/-- Under the condition, pieces give what the whole text gives. -/
lemma Drained.feed_eq_whole (drained : Drained splitter) (pieces : List Text)
    (safe : stateCutSafe splitter.state (splitter.buf ++ pieces.flatten) = true) :
    feed splitter pieces = whole (withMore splitter pieces.flatten) := by
  induction pieces generalizing splitter with
  | nil =>
    rw [flatten_nil, withMore_nil]
    exact drained.finish_eq_whole
  | cons piece pieces ih =>
    have undecidedCase : splitter.isPlain = false → Live (withMore splitter piece) →
        feed splitter (piece :: pieces) = whole (withMore splitter (piece :: pieces).flatten) := by
      intro undecided live
      obtain ⟨later, merged⟩ := drain_spec live pieces.flatten
      have merges := merged (by simpa [withMore] using safe)
      rw [feed, push_of_undecided undecided]
      dsimp only
      rw [ih later merges.safe, flatten_cons, ← withMore_append]
      exact merges.total
    cases drained with
    | header begun missing looks => exact undecidedCase rfl (.header _ _)
    | body bodyOpen missing => exact undecidedCase rfl (.body _ bodyOpen)
    | plain begun =>
      rw [feed_plain]
      exact whole_plain.symm

end Merge

section Converse

lemma append_left_cancel {first second : Split} (same : out.append first = out.append second) :
    first = second := by
  obtain ⟨reasoning, content⟩ := first
  obtain ⟨otherReasoning, otherContent⟩ := second
  simpa [Split.append] using same

/-- The one piece after a drain. -/
lemma Drained.feed_single (drained : Drained splitter) (second : Text) :
    feed splitter [second] = whole (withMore splitter second) := by
  cases drained with
  | header begun missing looks | body bodyOpen missing => exact Splitter.feed_single rfl second
  | plain begun =>
    rw [feed_plain, flatten_singleton]
    exact whole_plain.symm

variable {first text : Text}

lemma feed_two (undecided : splitter.isPlain = false) (live : Live (withMore splitter first))
    (second : Text) :
    feed splitter [first, second] = twoPieces (withMore splitter first) second := by
  rw [feed, push_of_undecided undecided]
  dsimp only
  rw [(drain_spec live second).1.feed_single second]
  rfl

/-- Both ways of cutting a text in two agree with reading it whole. -/
def CutsAgree (splitter : Splitter) (text : Text) : Prop :=
  ∀ first second, text = first ++ second → twoPieces { splitter with buf := first } second =
      whole { splitter with buf := text }

/-- A header that stops looking like one before its marker is complete is
taken for plain text by the reader that stops there. -/
lemma twoPieces_early (begun : Bool) (found : find messageMarker text = some (header, rest))
    (early : looksLikeHeader (header ++ messageMarker.dropLast) = false) :
    text = (header ++ messageMarker.dropLast) ++ ('>' :: rest) ∧ twoPieces
        ⟨.harmony, .header, header ++ messageMarker.dropLast, [],
          begun⟩ ('>' :: rest) = ⟨[], text⟩ := by
  have marker : messageMarker = messageMarker.dropLast ++ ['>'] := rfl
  have shape : text = (header ++ messageMarker.dropLast) ++ ('>' :: rest) := by
    rw [find_rebuild found]
    nth_rewrite 1 [marker]
    simp
  have missing : find messageMarker (header ++ messageMarker.dropLast) = none := by
    cases soon : find messageMarker (header ++ messageMarker.dropLast) with
    | none => rfl
    | some parts =>
      obtain ⟨before, after⟩ := parts
      have later := find_append soon ('>' :: rest)
      rw [← shape, found] at later
      simp only [Option.some.injEq, Prod.mk.injEq] at later
      have lengths := find_length soon
      rw [← later.1] at lengths
      have size : messageMarker.length = 11 := rfl
      have partLength : messageMarker.dropLast.length = 10 := rfl
      rw [length_append] at lengths
      omega
  refine ⟨shape, ?_⟩
  rw [twoPieces_next (round_header_plain missing early), twoPieces, drain_plain]
  dsimp only [withMore, nil_append]
  rw [whole_plain, shape]
  simp [Split.append, Split.empty]

lemma closeBody_isPrefix {channel : Channel} {ws : Text} {begun startedLater : Bool}
    {cut : Cut Char} {second : Text} (found : cutFirst endMarkers text = some cut)
    (closed : (closeBody ⟨.harmony, .body channel, text, ws, begun⟩ channel cut).1 =
      ⟨.harmony, .header, cut.after, [], startedLater⟩)
    (split : cut.after = first ++ second) : drainRound false
        (⟨.harmony, .body channel, cut.before ++ (cut.marker ++ first), ws, begun⟩, Split.empty) =
      .next (⟨.harmony, .header, first, [], startedLater⟩,
        (closeBody ⟨.harmony, .body channel, text, ws, begun⟩ channel cut).2) := by
  obtain ⟨before, marker, after⟩ := cut
  dsimp only at split
  subst split
  have rebuilt := cutFirst_rebuild found
  dsimp only at rebuilt
  rw [rebuilt] at found
  have shorter := cutFirst_shorten found
  rw [round_body_some shorter]
  cases channel <;> simp_all [closeBody, emitReasoning_eq]

/-- The condition is needed. -/
lemma cutSafe_of_cutsAgree (length : Nat) : (∀ text begun, text.length = length →
      CutsAgree ⟨.harmony, .header, [], [], begun⟩ text →
      cutSafe text = true) ∧
    (∀ text channel ws begun, text.length = length → BodyOpen channel ws begun →
      CutsAgree ⟨.harmony, .body channel, [], ws, begun⟩ text →
      bodyCutSafe text = true) := by
  induction length using Nat.strongRecOn with
  | ind length ih =>
    constructor
    · intro text begun size agree
      cases found : find messageMarker text with
      | none => exact cutSafe_of_none found
      | some parts =>
        obtain ⟨header, rest⟩ := parts
        rw [cutSafe_of_some found]
        cases early : looksLikeHeader (header ++ messageMarker.dropLast) with
        | true =>
          refine (ih rest.length (size ▸ find_after_length_lt found)).2 rest
            (channelOf header) [] begun rfl (.fresh _ _) ?_
          intro first second split
          subst split
          have rebuilt := find_rebuild found
          have cutFound := found
          rw [rebuilt] at cutFound
          have shorter := find_shorten cutFound
          have same := agree (header ++ (messageMarker ++ first)) second (by rw [rebuilt]; simp)
          dsimp only at same
          rw [twoPieces_next (round_header_some shorter), whole_header_some found] at same
          exact append_left_cancel same
        | false =>
          obtain ⟨shape, passed⟩ := twoPieces_early begun found early
          have same := agree _ _ shape
          dsimp only at same
          rw [passed] at same
          simpa using (whole_eq_iff begun).mp same.symm
    · intro text channel ws begun size bodyOpen agree
      rw [bodyCutSafe, Option.all_eq_true]
      intro next ended
      obtain ⟨cut, found, rfl⟩ := afterBody_eq_some ended
      have rebuilt := cutFirst_rebuild found
      have shorter : cut.after.length < length := size ▸ cut_after_length_lt found
      obtain ⟨startedLater, closed⟩ := closeBody_header bodyOpen text cut
      refine (ih cut.after.length shorter).1 cut.after startedLater rfl ?_
      intro first second split
      have same := agree (cut.before ++ (cut.marker ++ first)) second (by rw [rebuilt, split]; simp)
      dsimp only at same
      rw [twoPieces_next (closeBody_isPrefix found closed split), whole_body_some found] at same
      dsimp only at same
      rw [closed] at same
      exact append_left_cancel same

end Converse

/-- Whether every cut of an output is read as the whole is: the output starts
with a header, or inside a reasoning message that the prompt has opened. -/
def harmonyCutSafe (inReasoning : Bool) (text : Text) : Bool :=
  if inReasoning then bodyCutSafe text else cutSafe text

lemma new_harmony_drained (inReasoning : Bool) : Drained (new .harmony inReasoning) := by
  cases inReasoning with
  | false => exact .header false rfl rfl
  | true => exact .body (.fresh .analysis false) rfl

/-- Exactly the texts that satisfy the condition give the same reasoning and
answer in whatever pieces they arrive. -/
theorem feed_harmony_iff (inReasoning : Bool) (text : Text) :
    (∀ pieces : List Text, pieces.flatten = text → feed (new .harmony inReasoning) pieces =
        splitWhole .harmony inReasoning text) ↔
    harmonyCutSafe inReasoning text = true := by
  have drained := new_harmony_drained inReasoning
  have undecided : (new .harmony inReasoning).isPlain = false := by cases inReasoning <;> rfl
  have single : splitWhole .harmony inReasoning text =
      whole { new .harmony inReasoning with buf := text } := by
    rw [splitWhole, feed_single undecided]
    rfl
  have condition : harmonyCutSafe inReasoning text =
      stateCutSafe (new .harmony inReasoning).state text := by
    cases inReasoning <;> rfl
  rw [single]
  constructor
  · intro alike
    have agree : CutsAgree (new .harmony inReasoning) text := by
      intro first second split
      have same := alike [first, second] (by simp [split])
      have live : Live (withMore (new .harmony inReasoning) first) := by
        cases inReasoning with
        | false => exact .header first false
        | true => exact .body first (.fresh .analysis false)
      rw [feed_two undecided live] at same
      exact same
    rw [condition]
    cases inReasoning with
    | false => exact (cutSafe_of_cutsAgree _).1 text false rfl agree
    | true =>
      exact (cutSafe_of_cutsAgree _).2 text .analysis [] false rfl (.fresh _ _) agree
  · intro safe pieces joined
    rw [condition, ← joined] at safe
    rw [drained.feed_eq_whole pieces safe, joined]
    rfl

/-- Text in front of the first header: the first piece alone is taken for an
answer without framing, the whole text for a message. -/
theorem feed_harmony_differs : feed (new .harmony false)
        ["hello ".toList, "<|channel|>final<|message|>x".toList] =
      ⟨[], "hello <|channel|>final<|message|>x".toList⟩ ∧
    splitWhole .harmony false "hello <|channel|>final<|message|>x".toList = ⟨[], "x".toList⟩ := by
  decide

end Joshua.Splitter
