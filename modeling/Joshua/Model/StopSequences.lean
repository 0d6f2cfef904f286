/-
Module: Joshua.Model.StopSequences
Purpose: From emitted tokens to the response: the decoder of a token and the
  check for stop sequences.
Trusted boundary: the tokenizer library: the pieces of a decode stream and the
  text of single tokens are arbitrary functions, and for a byte-level decoder
  the bytes of a token are
-/
import Joshua.Foundation.Utf8
import Joshua.Model.Text

namespace Joshua
open Joshua.Foundation

/-! ## Stop sequences -/

/-- The first stop sequence that ends a response. -/
def findStop (stops : List Text) (response : Text) : Option Text :=
  stops.find? fun stop => !stop.isEmpty && stop.isSuffixOf response

/-- `check_stop_sequences`: the response, without the stop sequence that ends
it unless that is kept, and that stop sequence. -/
def checkStopSequences (response : Text) (stops : List Text) (keep : Bool) : Text × Option Text :=
  match findStop stops response with
  | some stop =>
    (if keep then response
      else response.take (response.length - stop.length), some stop)
  | none => (response, none)

/-! ## Decoding tokens -/

/-- The decoders `emit_token` tells apart: byte-level, one with a decode
stream, which may give a piece for the newest of the tokens so far, and one
that decodes each token by itself. -/
inductive TokenDecoder
  | byteLevel (bytes : Nat → List UInt8)
  | stream (step : List Nat → Option Text)
  | single (decode : Nat → Text)

/-- `tokenizer.decode` of a byte-level tokenizer. -/
def decodeIds (bytes : Nat → List UInt8) (ids : List Nat) : Text :=
  Utf8.lossy (ids.flatMap bytes)

/-- `ByteWindowDecoder`: the last tokens and their text. -/
structure ByteWindow where
  tail : List Nat
  tailText : Text
deriving Repr, DecidableEq

def ByteWindow.empty : ByteWindow :=
  ⟨[], []⟩

def byteWindowSize : Nat := 8

/-- `ByteWindowDecoder::push`: the response and the window after a token. -/
def ByteWindow.push (bytes : Nat → List UInt8) (window : ByteWindow) (token : Nat) (response : Text)
    (allIds : List Nat) : Text × ByteWindow :=
  let tail := window.tail ++ [token]
  let newText := decodeIds bytes tail
  let response :=
    if window.tailText.isPrefixOf newText then
      response ++ newText.drop window.tailText.length
    else decodeIds bytes allIds
  if byteWindowSize < tail.length then
    (response, ⟨tail.drop 1, decodeIds bytes (tail.drop 1)⟩)
  else
    (response, ⟨tail, newText⟩)

/-- The part of `DecodeText` that the text depends on. -/
structure DecodeText where
  response : Text
  decodedIds : List Nat
  byteWindow : ByteWindow
  nDecoded : Nat
deriving Repr, DecidableEq

def DecodeText.start : DecodeText :=
  ⟨[], [], ByteWindow.empty, 0⟩

/-- The options about stop sequences. -/
structure StopOptions where
  stopSequences : List Text
  includeStop : Bool
  minTokens : Nat
deriving Repr, DecidableEq

section Emit
variable (decoder : TokenDecoder) (options : StopOptions)

/-- Append a token's text to the response. -/
def appendToken (text : DecodeText) (token : Nat) : DecodeText :=
  let ids := text.decodedIds ++ [token]
  match decoder with
  | .byteLevel bytes =>
    let (response, window) := text.byteWindow.push bytes token text.response ids
    { text with
      response := response
      decodedIds := ids
      byteWindow := window
      nDecoded := text.nDecoded + 1 }
  | .stream step =>
    { text with
      response := text.response ++ (step ids).getD []
      decodedIds := ids
      nDecoded := text.nDecoded + 1 }
  | .single decode =>
    { text with
      response := text.response ++ decode token
      decodedIds := ids
      nDecoded := text.nDecoded + 1 }

/-- `emit_token`: the text after a token and the stop sequence it
completed. -/
def emitToken (text : DecodeText) (token : Nat) : DecodeText × Option Text :=
  let text := appendToken decoder text token
  if text.nDecoded ≤ options.minTokens then (text, none)
  else
    let (response, stop) := checkStopSequences text.response
      options.stopSequences options.includeStop
    ({ text with response := response }, stop)

/-- The text side of `decode_loop` from some tokens on: every token is
emitted, up to a stop sequence. -/
def emitTokens (text : DecodeText) : List Nat → DecodeText × Option Text
  | [] => (text, none)
  | token :: rest =>
    let (text, stop) := emitToken decoder options text token
    if stop.isSome then (text, stop) else emitTokens text rest

end Emit

end Joshua
