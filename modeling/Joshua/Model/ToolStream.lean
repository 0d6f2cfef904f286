/-
Module: Joshua.Model.ToolStream
Purpose: The streaming reader of tool calls: text arrives in pieces, prose
  goes out at once, and the region after a marker is read again from its start
  whenever it grows.  Offsets count bytes, and every slice and index of the
  source is one that can fault.
Trusted boundary: the grammar of a model family is a parameter here; a reader
  sees the request's tool definitions through its `scan`
-/
import Joshua.Model.Text

namespace Joshua
open Joshua.Foundation

/-! ## The grammar interface -/

/-- A string that opens a tool-call region. -/
structure Marker where
  text : Text
  leading : Bool
  close : List Text
deriving Repr, DecidableEq

/-- A tool call as far as it has been generated. -/
structure PartialCall where
  id : Option Text
  name : Text
  args : Text
  done : Option Text
deriving Repr, DecidableEq

/-- The result of reading a region; lengths are in bytes. -/
inductive Scan
  | pending
  | text (length : Nat)
  | calls (calls : List PartialCall) (ending : Option Nat)
deriving Repr, DecidableEq

/-- One family's markup.  The second argument of `scan` tells whether decoding
has ended. -/
structure Grammar where
  markers : List Marker
  scan : Text → Bool → Scan

/-! ## The stream -/

inductive ToolEvent
  | text (text : Text)
  | callStart (index : Nat) (id : Option Text) (name : Text)
  | callArgs (index : Nat) (delta : Text)
deriving Repr, DecidableEq

/-- What has been sent for one call. -/
structure Sent where
  id : Option Text
  name : Text
  args : Text
  done : Option Text
deriving Repr, DecidableEq

structure ToolStream where
  text : Text
  /-- Bytes of `text` already emitted or consumed. -/
  pos : Nat
  atStart : Bool
  /-- Start of the tool-call region being read. -/
  region : Option Nat
  /-- Index in `calls` of the open region's first call. -/
  regionFirst : Nat
  /-- Where the open region's markup broke off. -/
  broken : Option Nat
  calls : List Sent
  holdWhitespace : Bool
  heldWhitespace : Text
deriving Repr, DecidableEq

/-- `ToolCallStream::with_grammar`. -/
def ToolStream.start : ToolStream where
  text := []
  pos := 0
  atStart := true
  region := none
  regionFirst := 0
  broken := none
  calls := []
  holdWhitespace := true
  heldWhitespace := []

/-- A stream and what it has sent during the present call. -/
structure Progress where
  stream : ToolStream
  out : List ToolEvent
deriving Repr, DecidableEq

/-- `push_text`: append prose, merging with a preceding text event. -/
def pushText (out : List ToolEvent) (text : Text) : List ToolEvent :=
  if text = [] then out
  else
    match out.getLast? with
    | some (.text last) => out.dropLast ++ [.text (last ++ text)]
    | _ => out ++ [.text text]

/-- `prose`: whitespace before any other prose is held back. -/
def prose (text : Text) (progress : Progress) : Progress :=
  let stream := progress.stream
  if text = [] then progress
  else if stream.holdWhitespace then
    if trim text = [] then
      { progress with
        stream := { stream with
          heldWhitespace := stream.heldWhitespace ++ text } }
    else
      { stream := { stream with
          holdWhitespace := false
          heldWhitespace := []
          atStart := false }
        out := pushText (pushText progress.out stream.heldWhitespace) text }
  else
    { stream := { stream with atStart := false }
      out := pushText progress.out text }

/-! ## Finding markers -/

/-- Whether `pattern` can be cut at byte `n` and `text` ends with what is
before. -/
def endsWithStart (text pattern : Text) (n : Nat) : Bool :=
  match splitAt pattern n with
  | .ok (start, _) => start.isSuffixOf text
  | .error _ => false

/-- The loop of `partial_suffix` over the lengths for one pattern. -/
def partialSuffixFrom (text pattern : Text) (keep : Nat) : Nat → Nat
  | 0 => keep
  | n + 1 =>
    if keep < n + 1 then
      if endsWithStart text pattern (n + 1) then n + 1
      else partialSuffixFrom text pattern keep n
    else
      keep

/-- `partial_suffix`, which counts bytes. -/
def partialSuffixBytes (text : Text) (patterns : List Text) : Nat :=
  patterns.foldl (fun keep pattern =>
    partialSuffixFrom text pattern keep (min (byteLength pattern - 1) (byteLength text))) 0

inductive Found
  | marker (offset : Nat)
  | hold (keep : Nat)
deriving Repr, DecidableEq

section Markers
variable (grammar : Grammar)

/-- The markers that count everywhere in the output. -/
def Grammar.anywhere : List Text :=
  (grammar.markers.filter fun marker => !marker.leading).map Marker.text

/-- The markers that only count at the very start. -/
def Grammar.leading : List Text :=
  (grammar.markers.filter Marker.leading).map Marker.text

def findMarker (atStart : Bool) (rest : Text) (finished : Bool) : Found :=
  if atStart && grammar.leading.any fun marker => marker.isPrefixOf (trimStart rest) then
    .marker 0
  else if atStart && !finished && grammar.leading.any fun marker =>
      (trimStart rest).isPrefixOf marker then
    .hold (byteLength rest)
  else
    match cutFirst grammar.anywhere rest with
    | some cut => .marker (byteLength cut.before)
    | none =>
      if finished then .hold 0
      else .hold (partialSuffixBytes rest grammar.anywhere)

/-- The marker a region starts with, and the bytes up to its end. -/
def opening (region : Text) : Option (Marker × Nat) :=
  maxByKey? Prod.snd <| grammar.markers.filterMap fun marker =>
    let tail := if marker.leading then trimStart region else region
    let indent := byteLength region - byteLength tail
    if marker.text.isPrefixOf tail then
      some (marker, indent + byteLength marker.text)
    else
      none

/-! ## Regions that break off -/

/-- The scan of the first `length` bytes of a region, decoding still going
on. -/
def scanPrefix (region : Text) (length : Nat) : Except Fault Scan := do
  let (front, _) ← splitAt region length
  return grammar.scan front false

/-- The next place the bisection looks at: a boundary near the middle, or the
first one after `good`, or `bad` when there is none between. -/
def bisectMid (region : Text) (good bad : Nat) : Nat :=
  let below := boundaryBelow Char.utf8Size region good (good + (bad - good) / 2)
  if below = good then
    ((List.range' (good + 1) (bad - (good + 1))).find? (isCharBoundary region)).getD bad
  else
    below

lemma bisectMid_between {region : Text} {good bad : Nat}
    (inside : bisectMid region good bad < bad) :
    good < bisectMid region good bad ∧
      isCharBoundary region (bisectMid region good bad) = true := by
  rw [bisectMid] at inside ⊢
  split at inside
  next stuck =>
    rw [if_pos stuck]
    cases search : (List.range' (good + 1) (bad - (good + 1))).find? (isCharBoundary region) with
    | none =>
      rw [search, Option.getD_none] at inside
      exact absurd inside (Nat.lt_irrefl _)
    | some found =>
      have member := List.mem_of_find?_eq_some search
      rw [List.mem_range'_1] at member
      exact ⟨member.1, List.find?_some search⟩
  next moved =>
    rw [if_neg moved]
    have above : good ≤ boundaryBelow Char.utf8Size region good (good + (bad - good) / 2) :=
      (boundaryBelow_spec _ _ _ _).2.1 (Nat.le_add_right _ _)
    have strict := Nat.lt_of_le_of_ne above (Ne.symm moved)
    exact ⟨strict, (boundaryBelow_spec _ _ _ _).2.2 strict⟩

section
variable (region : Text)

/-- One round of the bisection: `good` scans as something other than text,
`bad` as text. -/
def bisectRound (bounds : Nat × Nat) : Round (Nat × Nat) (Except Fault Nat) :=
  let (good, bad) := bounds
  if bad < good then .stop (.error .underflow)
  else if bad ≤ bisectMid region good bad then .stop (.ok good)
  else
    match scanPrefix grammar region (bisectMid region good bad) with
    | .error fault => .stop (.error fault)
    | .ok (.text _) => .next (good, bisectMid region good bad)
    | .ok _ => .next (bisectMid region good bad, bad)

lemma bisectRound_decreases : Decreases (bisectRound grammar region) fun bounds =>
      bounds.2 - bounds.1 := by
  rintro ⟨good, bad⟩ later step
  rw [bisectRound] at step
  split_ifs at step with crossed outside
  have upper := Nat.lt_of_not_le outside
  have lower := (bisectMid_between upper).1
  split at step
  · cases step
  · cases step
    dsimp only
    omega
  · cases step
    dsimp only
    omega

/-- The bisection of `calls_before_break`. -/
def bisect (good bad : Nat) : Except Fault Nat :=
  Loop.run (bisectRound grammar region) (fun bounds => bounds.2 - bounds.1)
    (bisectRound_decreases grammar region) (good, bad)

/-- The calls in the longest prefix of a region that still scans as calls, and
that prefix's length. -/
def callsBeforeBreak : Except Fault (List PartialCall × Nat) :=
  match grammar.scan region false with
  | .calls calls _ => .ok (calls, byteLength region)
  | .pending => .ok ([], byteLength region)
  | .text _ =>
    match opening grammar region with
    | none => .ok ([], byteLength region)
    | some (_, marked) => do
        let good ← bisect grammar region marked (byteLength region)
        match ← scanPrefix grammar region good with
        | .calls calls _ => return (calls, good)
        | _ => return ([], good)

/-- Whether the text at an offset of a broken region opens calls of its
own. -/
def opensCalls (marker : Marker) (offset : Nat) : Except Fault Bool := do
  let (before, after) ← splitAt region offset
  let attached := before.getLast?.any fun previous =>
    !isWhitespace previous && previous ≠ '}' && previous ≠ ';'
  if marker.leading && attached then
    return false
  else
    match grammar.scan after true with
    | .calls calls _ => return !calls.isEmpty
    | _ => return false

end

/-- The candidates that open calls. -/
def keepOpenings (region : Text) : List (Marker × Nat) → Except Fault (List Nat)
  | [] => .ok []
  | (marker, offset) :: rest => do
      let opens ← opensCalls grammar region marker offset
      let later ← keepOpenings region rest
      return if opens then offset :: later else later

/-- Where a marker with a closing string occurs in the text after a break. -/
def markersAfter (tail : Text) (start : Nat) : List (Marker × Nat) :=
  (grammar.markers.filter fun marker => !marker.close.isEmpty).flatMap
    fun marker =>
      (matchIndices Char.utf8Size marker.text tail).map fun offset => (marker, start + offset)

/-- Where a region whose markup broke off at `start` ends; `none` while that
may still arrive. -/
def brokenEnd (region : Text) (start : Nat) (finished : Bool) : Except Fault (Option Nat) := do
  let close := ((opening grammar region).map fun found => found.1.close).getD []
  let (_, tail) ← splitAt region start
  let closeAt := (cutFirst close tail).map fun cut =>
    (start + byteLength cut.before, byteLength cut.marker)
  let nextAt := (← keepOpenings grammar region (markersAfter grammar tail start)).min?
  match nextAt, closeAt with
  | some next, some (at_, length) => return some (if next < at_ then next else at_ + length)
  | some next, none => return some next
  | none, some (at_, length) => return some (at_ + length)
  | none, none => return if finished then some (byteLength region) else none

end Markers

/-! ## Calls -/

/-- The formats a model can write its calls in. -/
inductive ToolCallFormat
  | generic
  | mistral
  | llamaJson
  | pythonic
  | lfm2
  | nemotronV2
  | functools
  | deepSeekV3
  | deepSeekDsml
  | kimiK2
  | kimiK3
  | glm45
  | harmony
  | functionGemma
deriving Repr, DecidableEq

/-- Whether a call's id may come after its arguments. -/
def ToolCallFormat.maySupplyLateId : ToolCallFormat → Bool
  | .llamaJson | .nemotronV2 | .functools => true
  | _ => false

/-- Whether the open region is one of Mistral's JSON lists, whose calls carry
ids. -/
def regionHasMistralIds (stream : ToolStream) : Except Fault Bool :=
  match stream.region with
  | none => .ok false
  | some start => do
      let (_, region) ← splitAt stream.text start
      let marker := "[TOOL_CALLS]".toList
      if marker.isPrefixOf (trimStart region) then
        let rest := (trimStart region).drop marker.length
        return (trimStart rest).head? = some '['
      else
        return false

/-- The arguments to stream: once a call is complete, final arguments that
extend what was streamed. -/
def argsToStream (sent : Sent) (call : PartialCall) : Text :=
  match call.done with
  | some done =>
    if byteLength call.args < byteLength done && sent.args.isPrefixOf done
    then done
    else call.args
  | none => call.args

/-- What a reading of a call adds to what was sent for it, and the new part of
the arguments. -/
def updateSent (sent : Sent) (call : PartialCall) : Except Fault (Sent × Option Text) := do
  let args := argsToStream sent call
  let identified := { sent with
    id := sent.id.or call.id, done := call.done.or sent.done }
  if byteLength sent.args < byteLength args && sent.args.isPrefixOf args then
    let (_, delta) ← splitAt args (byteLength sent.args)
    return ({ identified with args := args }, some delta)
  else
    return (identified, none)

def syncUpdate (index : Nat) (call : PartialCall) (progress : Progress) : Except Fault Progress :=
  match progress.stream.calls[index]? with
  | none => .error .range
  | some sent => do
      let (updated, delta) ← updateSent sent call
      let stream := { progress.stream with
        calls := progress.stream.calls.set index updated }
      match delta with
      | some delta => return ⟨stream, progress.out ++ [.callArgs index delta]⟩
      | none => return ⟨stream, progress.out⟩

/-- A call that starts: whitespace held back so far is dropped. -/
def startCall (index : Nat) (call : PartialCall) (progress : Progress) : Progress where
  stream := { progress.stream with
    heldWhitespace := []
    holdWhitespace := true
    calls := progress.stream.calls ++
      [{ id := call.id, name := call.name, args := [], done := none }] }
  out := progress.out ++ [.callStart index call.id call.name]

/-- The loop of `sync` from one call on. -/
def syncFrom (format : Option ToolCallFormat) :
    Nat → List PartialCall → Progress → Except Fault Progress
  | _, [], progress => .ok progress
  | index, call :: rest, progress =>
    if index = progress.stream.calls.length then
      if call.name = [] then .ok progress
      else do
        let mistral ← regionHasMistralIds progress.stream
        let late := format.any ToolCallFormat.maySupplyLateId
        if call.id.isNone && call.done.isNone && (mistral || late) then
          return progress
        else
          let started ← syncUpdate index call (startCall index call progress)
          syncFrom format (index + 1) rest started
    else do
      let updated ← syncUpdate index call progress
      syncFrom format (index + 1) rest updated

/-- `sync`: emit what changed in the open region's calls. -/
def sync (format : Option ToolCallFormat) (calls : List PartialCall)
    (progress : Progress) : Except Fault Progress :=
  syncFrom format progress.stream.regionFirst calls progress

/-! ## Draining -/

/-- `release`: the first bytes of a region as prose, at least one
character. -/
def release (region : Text) (start length : Nat) (progress : Progress) : Except Fault Progress := do
  let first := (region.head?.map Char.utf8Size).getD 0
  let wanted := min (max length first) (byteLength region)
  let cut := boundaryAbove Char.utf8Size region wanted
  let (text, _) ← splitAt region cut
  let spoken := prose text progress
  return { spoken with
    stream := { spoken.stream with pos := start + cut, region := none } }

/-- A step of `drain` and whether the loop goes on. -/
structure Step where
  again : Bool
  progress : Progress

section Drain
variable (grammar : Grammar) (format : Option ToolCallFormat) (finished : Bool)

/-- Outside a region: look for a marker. -/
def seekStep (progress : Progress) : Except Fault Step := do
  let stream := progress.stream
  let (_, rest) ← splitAt stream.text stream.pos
  match findMarker grammar stream.atStart rest finished with
  | .marker offset =>
    let (text, _) ← splitAt rest offset
    let spoken := prose text progress
    let start := spoken.stream.pos + offset
    return ⟨true, { spoken with
      stream := { spoken.stream with
        atStart := false
        pos := start
        region := some start
        regionFirst := spoken.stream.calls.length } }⟩
  | .hold keep =>
    let ready ← u64Sub (byteLength rest) keep
    let (text, _) ← splitAt rest ready
    let spoken := prose text progress
    return ⟨false, { spoken with
      stream := { spoken.stream with
        pos := spoken.stream.pos + ready } }⟩

/-- In a region that broke off: look for its end. -/
def brokenStep (region : Text) (start from_ : Nat) (progress : Progress) : Except Fault Step := do
  match ← brokenEnd grammar region from_ finished with
  | some ending =>
    return ⟨true, { progress with
      stream := { progress.stream with
        pos := start + ending, region := none, broken := none } }⟩
  | none => return ⟨false, progress⟩

def breakOff (from_ : Nat) (progress : Progress) : Progress :=
  { progress with stream := { progress.stream with broken := some from_ } }

/-- A region that is not, or no longer, a call.  A call that had begun in it
stands; without one the region, or `length` bytes of it, is prose. -/
def textStep (region : Text) (start length : Nat) (progress : Progress) : Except Fault Step := do
  let (calls, good) ← callsBeforeBreak grammar region
  let synced ← sync format calls progress
  if synced.stream.regionFirst < synced.stream.calls.length then
    return ⟨true, breakOff good synced⟩
  else
    return ⟨true, ← release region start length synced⟩

/-- A region that reads as calls. -/
def callsStep (region : Text) (start : Nat) (calls : List PartialCall)
    (ending : Option Nat) (progress : Progress) : Except Fault Step := do
  let begun ← u64Sub progress.stream.calls.length progress.stream.regionFirst
  let synced ← sync format calls progress
  let read := ending.filter fun length => 0 < length
  if calls.length < begun then
    return ⟨true, breakOff (read.getD (byteLength region)) synced⟩
  else
    match read with
    | some length =>
      return ⟨true, { synced with
        stream := { synced.stream with
          pos := start + length, region := none } }⟩
    | none =>
      if finished then
        return ⟨false, { synced with
          stream := { synced.stream with
            pos := byteLength synced.stream.text, region := none } }⟩
      else
        return ⟨false, synced⟩

/-- One round of the loop of `drain`. -/
def drainStep (progress : Progress) : Except Fault Step :=
  match progress.stream.region with
  | none => seekStep grammar finished progress
  | some start => do
      let (_, region) ← splitAt progress.stream.text start
      match progress.stream.broken with
      | some from_ => brokenStep grammar finished region start from_ progress
      | none =>
        match grammar.scan region finished with
        | .pending =>
          if finished then
            textStep grammar format region start (byteLength region) progress
          else
            return ⟨false, progress⟩
        | .text length => textStep grammar format region start length progress
        | .calls calls ending => callsStep format finished region start calls ending progress

def drainRound (progress : Progress) : Round Progress (Except Fault Progress) :=
  match drainStep grammar format finished progress with
  | .error fault => .stop (.error fault)
  | .ok step => if step.again then .next step.progress else .stop (.ok step.progress)

/-- `drain`, for at most `rounds` rounds of its loop; a loop that takes more
is a fault. -/
def drain (rounds : Nat) (progress : Progress) : Except Fault Progress :=
  (loop (drainRound grammar format finished) rounds progress).getD (.error .spin)

end Drain

/-- `compact`: drop the text that has been consumed. -/
def compact (stream : ToolStream) : Except Fault ToolStream := do
  let consumed := stream.region.getD stream.pos
  let (_, text) ← splitAt stream.text consumed
  let pos ← u64Sub stream.pos consumed
  match stream.region with
  | none => return { stream with text := text, pos := pos }
  | some start =>
    let region ← u64Sub start consumed
    return { stream with text := text, pos := pos, region := some region }

section Stream
variable (grammar : Option Grammar) (format : Option ToolCallFormat) (rounds : Nat)

/-- `push`: feed newly decoded text.  Without a grammar everything is
prose. -/
def push (stream : ToolStream) (delta : Text) : Except Fault (ToolStream × List ToolEvent) :=
  match grammar with
  | none => .ok (stream, if delta = [] then [] else [.text delta])
  | some grammar => do
      let grown := { stream with text := stream.text ++ delta }
      let drained ← drain grammar format false rounds ⟨grown, []⟩
      return (← compact drained.stream, drained.out)

/-- `finish`: flush everything held back.  An output of nothing but whitespace
is still the answer. -/
def finish (stream : ToolStream) : Except Fault (ToolStream × List ToolEvent) :=
  match grammar with
  | none => .ok (stream, [])
  | some grammar => do
      let drained ← drain grammar format true rounds ⟨stream, []⟩
      let last ← compact drained.stream
      let out := if last.calls.isEmpty then
        pushText drained.out last.heldWhitespace else drained.out
      return ({ last with heldWhitespace := [] }, out)

/-- Several pieces one after another. -/
def pushAll : ToolStream → List Text → Except Fault (ToolStream × List ToolEvent)
  | stream, [] => .ok (stream, [])
  | stream, piece :: rest => do
      let (next, first) ← push grammar format rounds stream piece
      let (last, later) ← pushAll next rest
      return (last, first ++ later)

/-- A whole generation: the pieces in order, then the end. -/
def feed (pieces : List Text) : Except Fault (ToolStream × List ToolEvent) := do
  let (stream, sent) ← pushAll grammar format rounds ToolStream.start pieces
  let (last, flushed) ← finish grammar format rounds stream
  return (last, sent ++ flushed)

end Stream

/-- A call as the API reports it. -/
structure ParsedToolCall where
  name : Text
  arguments : Text
  id : Option Text
deriving Repr, DecidableEq

/-- `calls`: the calls found so far, with their final arguments. -/
def ToolStream.parsedCalls (stream : ToolStream) : List ParsedToolCall :=
  stream.calls.map fun call =>
    { name := call.name
      arguments := call.done.getD call.args
      id := call.id }

end Joshua
