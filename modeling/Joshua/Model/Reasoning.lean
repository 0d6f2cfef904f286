/-
Module: Joshua.Model.Reasoning
Purpose: The splitter that separates a reasoning model's chain of thought
  from its answer while the text is decoded (`reasoning.rs`), with the header
  readers it shares with the harmony tool-call grammar (`tools/harmony.rs`).
Trusted boundary: none
-/
import Joshua.Model.Text

namespace Joshua
open Joshua.Foundation List

namespace Harmony

/-- `START`. -/
def startMarker : Text := "<|start|>".toList

/-- `CHANNEL`. -/
def channelMarker : Text := "<|channel|>".toList

/-- `MESSAGE`. -/
def messageMarker : Text := "<|message|>".toList

/-- `ENDS`: the strings that end a message. -/
def endMarkers : List Text :=
  ["<|call|>".toList, "<|end|>".toList, "<|return|>".toList]

/-- Where a header word stops. -/
def endsWord (c : Char) : Bool :=
  isWhitespace c || c == '<'

/-- One round of the search for a recipient: the first `to=` that starts a
word, or the text after a `to=` that does not. -/
def recipientRound (rest : Text) : Round Text (Option Text) :=
  match find "to=".toList rest with
  | none => .stop none
  | some (before, after) =>
    if before.getLast?.all fun c => isWhitespace c || c == '>' then
      .stop (some (after.takeWhile fun c => !endsWord c))
    else
      .next after

lemma recipientRound_decreases : Decreases recipientRound List.length := by
  intro rest later step
  unfold recipientRound at step
  split at step
  · cases step
  · rename_i before after found
    split at step
    · cases step
    · cases step
      rw [find_rebuild found, length_append, length_append]
      exact Nat.lt_add_left _ (Nat.lt_add_of_pos_left (by decide))

/-- The header's `to=` recipient, which makes the message a tool call. -/
def recipient (header : Text) : Option Text :=
  Loop.run recipientRound List.length recipientRound_decreases header

/-- The header's channel name. -/
def channel (header : Text) : Option Text :=
  (afterLast channelMarker header).map fun rest => rest.takeWhile fun c => !endsWord c

end Harmony

/-- How a model marks its reasoning in generated text. -/
inductive ReasoningFormat
  | none
  | tags (start close : Text)
  | harmony
deriving Repr, DecidableEq

/-- Reasoning and answer text produced by one step of a splitter. -/
structure Split where
  reasoning : Text
  content : Text
deriving Repr, DecidableEq

namespace Split

def empty : Split := ⟨[], []⟩

/-- What two steps produce together. -/
def append (first second : Split) : Split :=
  ⟨first.reasoning ++ second.reasoning, first.content ++ second.content⟩

def addReasoning (out : Split) (text : Text) : Split :=
  { out with reasoning := out.reasoning ++ text }

def addContent (out : Split) (text : Text) : Split :=
  { out with content := out.content ++ text }

end Split

inductive Channel
  | analysis
  | final
  | raw
deriving Repr, DecidableEq

namespace Splitter

inductive State
  | start
  | reasoning
  | content (afterReasoning : Bool)
  | header
  | body (channel : Channel)
deriving Repr, DecidableEq

end Splitter

/-- Streaming splitter for one generation. -/
structure Splitter where
  format : ReasoningFormat
  state : Splitter.State
  buf : Text
  pendingWs : Text
  reasoningStarted : Bool
deriving Repr, DecidableEq

namespace Splitter

def new (format : ReasoningFormat) (inReasoning : Bool) : Splitter :=
  { format := format
    state :=
      match format, inReasoning with
      | .none, _ => .content false
      | .tags _ _, true => .reasoning
      | .tags _ _, false => .start
      | .harmony, true => .body .analysis
      | .harmony, false => .header
    buf := []
    pendingWs := []
    reasoningStarted := false }

/-- Emit reasoning text, holding back its trailing whitespace until more
reasoning follows; `closing` drops it. -/
def emitReasoning (splitter : Splitter) (out : Split) (text : Text)
    (closing : Bool) : Splitter × Split :=
  let text := if splitter.reasoningStarted then text else trimStart text
  let body := trimEnd text
  let (emitted, out) :=
    if body.isEmpty then
      (splitter, out)
    else
      ({ splitter with pendingWs := [], reasoningStarted := true },
        out.addReasoning (splitter.pendingWs ++ body))
  if closing then
    ({ emitted with pendingWs := [] }, out)
  else
    ({ emitted with pendingWs := emitted.pendingWs ++ trailingSpace text }, out)

/-- Emit answer text; right after a reasoning block its leading whitespace is
dropped. -/
def emitContent (splitter : Splitter) (out : Split) (text : Text) : Splitter × Split :=
  match splitter.state with
  | .content true =>
    let trimmed := trimStart text
    if trimmed.isEmpty then
      (splitter, out)
    else
      ({ splitter with state := .content false }, out.addContent trimmed)
  | _ => (splitter, out.addContent text)

/-- Whether `text` is, or may become, a harmony message header. -/
def looksLikeHeader (text : Text) : Bool :=
  let trimmed := trimStart text
  trimmed.isEmpty || Harmony.startMarker.isPrefixOf trimmed ||
    Harmony.channelMarker.isPrefixOf trimmed ||
    trimmed.isPrefixOf Harmony.startMarker ||
    trimmed.isPrefixOf Harmony.channelMarker

/-- The channel a header opens.  A message addressed to a tool is passed on
as written, whatever its channel. -/
def channelOf (header : Text) : Channel :=
  if (Harmony.recipient header).isSome then
    .raw
  else if Harmony.channel header = some "analysis".toList then
    .analysis
  else if Harmony.channel header = some "final".toList then
    .final
  else
    .raw

/-- Whether the state only passes text on. -/
def isPlain (splitter : Splitter) : Bool :=
  splitter.state == .content false

/-- One round of `drain`. -/
def drainRound (flushing : Bool) (current : Splitter × Split) :
    Round (Splitter × Split) (Splitter × Split) :=
  let (splitter, out) := current
  match splitter.format, splitter.state with
  | _, .content _ => .stop (emitContent { splitter with buf := [] } out splitter.buf)
  | .tags start _, .start =>
    let trimmed := trimStart splitter.buf
    if start.isPrefixOf trimmed then
      .next
        ({ splitter with
            buf := trimmed.drop start.length
            state := .reasoning },
          out)
    else if !flushing && trimmed.isPrefixOf start then
      .stop (splitter, out)
    else
      .next ({ splitter with state := .content false }, out)
  | .tags _ close, .reasoning =>
    match find close splitter.buf with
    | some (body, rest) =>
      let (closed, out) := emitReasoning { splitter with buf := rest } out body true
      .next ({ closed with state := .content true }, out)
    | none =>
      if flushing then
        .stop (splitter, out)
      else
        .stop
          (emitReasoning { splitter with buf := held [close] splitter.buf } out
            (settled [close] splitter.buf) false)
  | .harmony, .header =>
    match find Harmony.messageMarker splitter.buf with
    | some (header, rest) =>
      let channel := channelOf header
      let out :=
        if channel = .raw then
          out.addContent (header ++ Harmony.messageMarker)
        else
          out
      .next ({ splitter with buf := rest, state := .body channel }, out)
    | none =>
      if looksLikeHeader splitter.buf then
        .stop (splitter, out)
      else
        .next ({ splitter with state := .content false }, out)
  | .harmony, .body channel =>
    match cutFirst Harmony.endMarkers splitter.buf with
    | some cut =>
      let (closed, out) :=
        match channel with
        | .analysis =>
          emitReasoning { splitter with buf := cut.after } out cut.before true
        | .final =>
          ({ splitter with buf := cut.after }, out.addContent cut.before)
        | .raw =>
          ({ splitter with buf := cut.after }, out.addContent (cut.before ++ cut.marker))
      .next ({ closed with state := .header }, out)
    | none =>
      if flushing then
        .stop (splitter, out)
      else
        let kept := { splitter with buf := held Harmony.endMarkers splitter.buf }
        let ready := settled Harmony.endMarkers splitter.buf
        match channel with
        | .analysis => .stop (emitReasoning kept out ready false)
        | .final => .stop (kept, out.addContent ready)
        | .raw => .stop (kept, out.addContent ready)
  -- a state of another format
  | _, _ => .next ({ splitter with state := .content false }, out)

/-- Rounds left: a round shortens the buffer by a marker or moves on to a
later state. -/
def drainMeasure (current : Splitter × Split) : Nat :=
  2 * current.1.buf.length +
    match current.1.state with
    | .content _ => 0
    | .start => 2
    | _ => 1

@[simp]
lemma emitReasoning_buf (splitter : Splitter) (out : Split) (text : Text) (closing : Bool) :
    (emitReasoning splitter out text closing).1.buf = splitter.buf := by
  unfold emitReasoning
  grind

lemma find_length {pattern text before after : Text}
    (found : find pattern text = some (before, after)) :
    text.length = before.length + pattern.length + after.length := by
  rw [find_rebuild found, length_append, length_append, Nat.add_assoc]

lemma find_after_length_lt {text header rest : Text}
    (found : find Harmony.messageMarker text = some (header, rest)) :
    rest.length < text.length := by
  have lengths := find_length found
  have size : Harmony.messageMarker.length = 11 := rfl
  omega

lemma endMarkers_length_pos {marker : Text} (mem : marker ∈ Harmony.endMarkers) :
    0 < marker.length := by
  simp only [Harmony.endMarkers, mem_cons, not_mem_nil, or_false] at mem
  rcases mem with same | same | same <;> (rw [same]; decide)

lemma cut_after_length_lt {text : Text} {cut : Cut Char}
    (found : cutFirst Harmony.endMarkers text = some cut) :
    cut.after.length < text.length := by
  have rebuilt := congrArg List.length (cutFirst_rebuild found)
  have pos := endMarkers_length_pos (cutFirst_marker_mem found)
  simp only [length_append] at rebuilt
  omega

lemma drainRound_decreases (flushing : Bool) : Decreases (drainRound flushing) drainMeasure := by
  intro current later step
  obtain ⟨⟨format, state, buf, pendingWs, started⟩, out⟩ := current
  have trimmedLe : (trimStart buf).length ≤ buf.length := (dropWhile_suffix _).length_le
  cases state with
  | content afterReasoning => simp [drainRound] at step
  | start =>
    cases format with
    | tags start close =>
      simp only [drainRound] at step
      split at step
      · cases step
        simp only [drainMeasure, length_drop]
        omega
      · split at step
        · cases step
        · cases step
          simp [drainMeasure]
    | none | harmony => cases step; simp [drainMeasure]
  | reasoning =>
    cases format with
    | tags start close =>
      simp only [drainRound] at step
      split at step
      · rename_i body rest found
        have lengths := find_length found
        cases step
        simp only [drainMeasure, emitReasoning_buf]
        omega
      · split at step <;> cases step
    | none | harmony => cases step; simp [drainMeasure]
  | header =>
    cases format with
    | harmony =>
      simp only [drainRound] at step
      split at step
      · rename_i header rest found
        have shorter := find_after_length_lt found
        cases step
        simp only [drainMeasure]
        omega
      · split at step
        · cases step
        · cases step
          simp [drainMeasure]
    | none | tags start close => cases step; simp [drainMeasure]
  | body channel =>
    cases format with
    | harmony =>
      simp only [drainRound] at step
      split at step
      · rename_i cut found
        have shorter := cut_after_length_lt found
        cases channel <;> cases step <;> simp only [drainMeasure, emitReasoning_buf] <;> omega
      · split at step
        · cases step
        · cases channel <;> cases step
    | none | tags start close => cases step; simp [drainMeasure]

/-- Classify what the buffer allows to classify. -/
def drain (flushing : Bool) (splitter : Splitter) (out : Split) : Splitter × Split :=
  Loop.run (drainRound flushing) drainMeasure (drainRound_decreases flushing) (splitter, out)

/-- Feed newly decoded text. -/
def push (splitter : Splitter) (text : Text) : Splitter × Split :=
  if splitter.isPlain then
    (splitter, Split.empty.addContent text)
  else
    drain false { splitter with buf := splitter.buf ++ text } Split.empty

/-- What the text left in the buffer becomes at the end. -/
def flush (drained : Splitter) (out : Split) : Split :=
  let rest := drained.buf
  let emptied := { drained with buf := [] }
  match drained.state with
  | .start => out.addContent rest
  | .reasoning => (emitReasoning emptied out rest true).2
  | .body .analysis => (emitReasoning emptied out rest true).2
  | .content true => out.addContent (trimStart rest)
  | .content false => out.addContent rest
  -- an unfinished header is not a message
  | .header => if looksLikeHeader rest then out else out.addContent rest
  | .body _ => out.addContent rest

/-- Flush everything still held back once decoding has ended. -/
def finish (splitter : Splitter) : Split :=
  let result := drain true splitter Split.empty
  flush result.1 result.2

/-- Everything produced from the pieces of a text and the final flush. -/
def feed (splitter : Splitter) : List Text → Split
  | [] => finish splitter
  | piece :: pieces =>
    let (next, out) := push splitter piece
    out.append (feed next pieces)

/-- The one-shot form for a complete output. -/
def splitWhole (format : ReasoningFormat) (inReasoning : Bool) (text : Text) : Split :=
  feed (new format inReasoning) [text]

end Splitter

end Joshua
