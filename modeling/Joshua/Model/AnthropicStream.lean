/-
Module: Joshua.Model.AnthropicStream
Purpose: The writer of Anthropic streaming events (`server.rs`,
  `AnthropicStreamEmitter`): content blocks that open and close as reasoning,
  prose, tool calls and their arguments arrive.
Trusted boundary: an event is its name and its data as a value, before it is
  written as JSON; the channel takes every event; reading and writing JSON
  text are parameters.
-/
import Joshua.Model.Text

namespace Joshua.Anthropic

/-- `ChatPiece`: one piece of a chat completion's output. -/
inductive ChatPiece
  | reasoning (text : Text)
  | text (text : Text)
  | callStart (index : Nat) (id name : Text)
  | callArgs (index : Nat) (delta : Text)
deriving Repr, DecidableEq

/-- The `content_block` a block starts with. -/
inductive ContentBlock
  | thinking
  | text
  | toolUse (id name : Text)
deriving Repr, DecidableEq

inductive Delta
  | thinkingDelta (thinking : Text)
  | signatureDelta (signature : Text)
  | textDelta (text : Text)
  | inputJsonDelta (partialJson : Text)
deriving Repr, DecidableEq

/-- `MessagesUsage`. -/
structure MessagesUsage where
  cacheReadInputTokens : Nat
  inputTokens : Nat
  outputTokens : Nat
deriving Repr, DecidableEq

inductive Event
  | messageStart (id model : Text) (inputTokens : Nat)
  | contentBlockStart (index : Nat) (contentBlock : ContentBlock)
  | contentBlockDelta (index : Nat) (delta : Delta)
  | contentBlockStop (index : Nat)
  | messageDelta (stopReason : Text) (stopSequence : Option Text) (usage : MessagesUsage)
  | messageStop
deriving Repr, DecidableEq

/-- Why a generation ended. -/
inductive StopType
  | eos
  | word
  | limit
  | cancelled
deriving Repr, DecidableEq

/-- The part of a completion `finish` reads. -/
structure Completion where
  stopType : StopType
  stopSequence : Option Text
  cachedTokens : Nat
  promptTokens : Nat
  completionTokens : Nat

/-- `stop_reason`. -/
def stopReason (stopType : StopType) (hasCalls : Bool) : Text :=
  match stopType with
  | .limit | .cancelled => "max_tokens".toList
  | .word => "stop_sequence".toList
  | .eos => if hasCalls then "tool_use".toList else "end_turn".toList

/-- `MessagesUsage::from_completion`. -/
def MessagesUsage.fromCompletion (completion : Completion) : MessagesUsage :=
  let cached := min completion.cachedTokens completion.promptTokens
  { cacheReadInputTokens := cached
    inputTokens := completion.promptTokens - cached
    outputTokens := completion.completionTokens }

/-- The JSON library: reading a text and writing a value. -/
structure Serde where
  fromStr : Text → Option Json
  toText : Json → Text

/-- `tool_input`. -/
def toolInput (serde : Serde) (arguments : Text) : Json :=
  (serde.fromStr arguments).getD (.string arguments)

/-- `tool_arguments_json`. -/
def toolArgumentsJson (serde : Serde) (arguments : Text) : Text :=
  serde.toText (toolInput serde arguments)

/-- `AnthropicBlock`: the kind of an open content block. -/
inductive Block
  | thinking
  | text
  | tool (call : Nat) (streaming : Bool) (held : Option Text)
deriving Repr, DecidableEq

structure Emitter where
  id : Text
  model : Text
  /-- What was sent. -/
  sent : List Event
  /-- The open content block's index and kind. -/
  opened : Option (Nat × Block)
  /-- A `text` or `tool_use` block has opened. -/
  answered : Bool
  nextIndex : Nat

namespace Emitter

variable (serde : Serde)

def new (id model : Text) : Emitter :=
  { id := id
    model := model
    sent := []
    opened := none
    answered := false
    nextIndex := 0 }

def send (event : Event) (emitter : Emitter) : Emitter :=
  { emitter with sent := emitter.sent ++ [event] }

def messageStart (inputTokens : Nat) (emitter : Emitter) : Emitter :=
  emitter.send (.messageStart emitter.id emitter.model inputTokens)

def delta (index : Nat) (delta : Delta) (emitter : Emitter) : Emitter :=
  emitter.send (.contentBlockDelta index delta)

/-- `close_block`: a `thinking` block ends with an empty signature, a
`tool_use` block with arguments held as text sends them now. -/
def closeBlock (emitter : Emitter) : Emitter :=
  match emitter.opened with
  | none => emitter
  | some (index, kind) =>
    let taken := { emitter with opened := none }
    let ended :=
      match kind with
      | .thinking => taken.delta index (.signatureDelta [])
      | .tool _ _ (some held) => taken.delta index (.inputJsonDelta (toolArgumentsJson serde held))
      | _ => taken
    ended.send (.contentBlockStop index)

/-- `open_block`: open a content block, closing the one before it. -/
def openBlock (kind : Block) (contentBlock : ContentBlock) (emitter : Emitter) : Emitter × Nat :=
  let closed := emitter.closeBlock serde
  let index := closed.nextIndex
  let started := { closed with nextIndex := closed.nextIndex + 1 }.send
    (.contentBlockStart index contentBlock)
  ({ started with opened := some (index, kind) }, index)

def thinking (text : Text) (emitter : Emitter) : Emitter :=
  if text.isEmpty || emitter.answered then
    emitter
  else
    let block :=
      match emitter.opened with
      | some (index, .thinking) => (emitter, index)
      | _ => emitter.openBlock serde .thinking .thinking
    block.1.delta block.2 (.thinkingDelta text)

def text (text : Text) (emitter : Emitter) : Emitter :=
  if text.isEmpty then
    emitter
  else
    let block :=
      match emitter.opened with
      | some (index, .text) => (emitter, index)
      | _ => { emitter with answered := true }.openBlock serde .text .text
    block.1.delta block.2 (.textDelta text)

def toolStart (index : Nat) (id name : Text) (emitter : Emitter) : Emitter :=
  ({ emitter with answered := true }.openBlock serde (.tool index false none) (.toolUse id name)).1

/-- The text starts a JSON object or array, after white space. -/
def startsJson (text : Text) : Bool :=
  match trimStart text with
  | '\x7b' :: _ => true
  | '[' :: _ => true
  | _ => false

def toolArgs (index : Nat) (delta : Text) (emitter : Emitter) : Emitter :=
  match emitter.opened with
  | some (block, .tool call streaming held) =>
    if call = index then
      -- the first piece decides how the arguments are sent
      let undecided := !streaming && held.isNone
      let streaming := if undecided then startsJson delta else streaming
      let held := if undecided && !startsJson delta then some [] else held
      match held with
      | some held =>
        { emitter with
          opened := some (block, .tool call streaming (some (held ++ delta))) }
      | none =>
        { emitter with opened := some (block, .tool call streaming none) }
          |>.delta block (.inputJsonDelta delta)
    else
      emitter
  | _ => emitter

/-- `piece`: send one piece of the shared post-processing's output. -/
def piece (emitter : Emitter) : ChatPiece → Emitter
  | .reasoning text => emitter.thinking serde text
  | .text text => emitter.text serde text
  | .callStart index id name => emitter.toolStart serde index id name
  | .callArgs index delta => emitter.toolArgs index delta

def finish (hasCalls : Bool) (completion : Completion) (emitter : Emitter) : Emitter :=
  (emitter.closeBlock serde).send
      (.messageDelta (stopReason completion.stopType hasCalls)
        completion.stopSequence (MessagesUsage.fromCompletion completion))
    |>.send .messageStop

/-- What `stream_messages` sends for a completion that succeeds. -/
def stream (id model : Text) (inputTokens : Nat) (pieces : List ChatPiece)
    (hasCalls : Bool) (completion : Completion) : List Event :=
  ((pieces.foldl (piece serde) ((new id model).messageStart inputTokens)).finish
    serde hasCalls completion).sent

end Emitter

end Joshua.Anthropic
