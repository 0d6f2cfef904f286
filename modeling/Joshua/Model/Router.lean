/-
Module: Joshua.Model.Router
Purpose: A request on its way through the router (`coordinator.rs`,
  `coordinator/jobs.rs`): the framing of a worker's event stream, the first
  output of an attempt, the chunks a client is sent, the wait for a slot, and
  the two loops that try one worker after another.
Trusted boundary: what the workers answer, what the registry shows at each
  look and how the waits end are arguments; connections, timers and logs are
  left out.  A body is its frames and how it ends.
-/
import Joshua.Foundation.Bytes
import Joshua.Model.Basic
import Joshua.Model.Coordinator
import Joshua.Model.Text

namespace Joshua.Coordinator
open Joshua.Foundation

/-! ## Event streams -/

def newline : UInt8 := 10

/-- Events are terminated by a blank line. -/
def blankLine : List UInt8 := [newline, newline]

/-- `SseFramer`: the bytes behind the last whole event. -/
structure SseFramer where
  buf : List UInt8 := []

/-- `SseFramer::push`: add bytes; return every event completed so far. -/
def SseFramer.push (framer : SseFramer) (data : List UInt8) : Option (List UInt8) × SseFramer :=
  let (events, rest) := cutLast blankLine (framer.buf ++ data)
  (events, { buf := rest })

/-- `u8::is_ascii_whitespace`. -/
def isAsciiWhitespace (byte : UInt8) : Bool :=
  byte = 9 || byte = 10 || byte = 12 || byte = 13 || byte = 32

/-- `trim_ascii`. -/
def trimAscii (bytes : List UInt8) : List UInt8 :=
  (bytes.dropWhile isAsciiWhitespace).rdropWhile isAsciiWhitespace

/-- `line.strip_suffix(b"\r").unwrap_or(line)`. -/
def stripReturn (line : List UInt8) : List UInt8 :=
  if line.getLast? = some 13 then line.dropLast else line

def dataField : List UInt8 := ascii "data:"

def doneMarker : List UInt8 := ascii "[DONE]"

/-- A line `data: [DONE]`. -/
def isDoneLine (line : List UInt8) : Bool :=
  match (stripReturn line).dropPrefix? dataField with
  | some value => trimAscii value == doneMarker
  | none => false

/-- `has_done_event`. -/
def hasDoneEvent (events : List UInt8) : Bool :=
  (events.splitOn newline).any isDoneLine

/-- A frame of a body. -/
inductive Frame
  | data (bytes : List UInt8)
  | trailers
deriving Repr, DecidableEq

/-- How a body ends: closed, or lost with an error. -/
inductive Ending
  | closed
  | lost (error : String)
deriving Repr, DecidableEq

/-- The rest of a worker's body. -/
structure Incoming where
  frames : List Frame
  ending : Ending

/-- Take frames until they complete an event: the events, the framer and the
frames that are left. -/
def awaitEvents : SseFramer → List Frame → Option (List UInt8) × SseFramer × List Frame
  | framer, [] => (none, framer, [])
  | framer, .trailers :: frames => awaitEvents framer frames
  | framer, .data bytes :: frames =>
    match framer.push bytes with
    | (some events, next) => (some events, next, frames)
    | (none, next) => awaitEvents next frames

/-- How a forwarded stream ended. -/
inductive StreamOutcome
  | clientDisconnected
  | complete
  | workerLost
deriving Repr, DecidableEq

/-- `StreamState`, without the connection, the slot and the log. -/
structure StreamState where
  body : Option Incoming
  framer : SseFramer
  first : Option (List UInt8)
  done : Bool
  events : Nat
  outcome : StreamOutcome

/-- `MID_STREAM_ERROR`. -/
def midStreamError : List UInt8 :=
  ascii ("data: \x7b\"error\":\x7b\"message\":\"the worker serving this request was "
    ++ "lost after output started; the response is incomplete\",\"type\":"
    ++ "\"server_error\",\"param\":null,\"code\":\"worker_lost\"\x7d\x7d\n\n")

/-- `next_chunk`: what the client is sent next, if anything. -/
def StreamState.nextChunk (state : StreamState) : Option (List UInt8) × StreamState :=
  match state.first with
  | some first => (some first, { state with first := none, events := state.events + 1 })
  | none =>
    match state.body with
    | none => (none, state)
    | some body =>
      match awaitEvents state.framer body.frames with
      | (some events, framer, frames) =>
        (some events, { state with
            body := some { body with frames := frames }
            framer := framer
            done := state.done || hasDoneEvent events
            events := state.events + 1 })
      | (none, framer, _) =>
        if state.done then
          (none, { state with
              body := none, framer := framer, outcome := .complete })
        else
          (some midStreamError, { state with
              body := none, framer := framer, outcome := .workerLost })

/-- The chunks of a number of polls; a client stops polling at the end. -/
def StreamState.run : Nat → StreamState → List (List UInt8) × StreamState
  | 0, state => ([], state)
  | polls + 1, state =>
    match state.nextChunk with
    | (none, next) => ([], next)
    | (some chunk, next) => (chunk :: (next.run polls).1, (next.run polls).2)

/-! ## One attempt -/

/-- What the client is answered. -/
inductive Response
  | error (status : Nat) (message kind : String) (code : Option String)
  | whole (status : Nat) (body : List UInt8)
  | stream (state : StreamState)

/-- `Failure`. -/
inductive Failure
  | retry (reason : String) (admission safe : Bool)
  | final (response : Response)

/-- What `send` returns: a failure, with whether the request may have reached
the worker, or the worker's answer. -/
inductive SendResult
  | failed (sent : Bool) (reason : String)
  | answered (status : Nat) (contentType : Option Text) (body : Incoming)

/-- The bytes of the data frames. -/
def received (frames : List Frame) : List UInt8 :=
  frames.flatMap fun frame =>
    match frame with
    | .data bytes => bytes
    | .trailers => []

def maxSmallBody : Nat := 2 ^ 20

/-- What `Limited` lets through of a body, if it does not fail. -/
def Incoming.collect (body : Incoming) (limit : Nat) : Except (Option String) (List UInt8) :=
  if limit < (received body.frames).length then .error none
  else
    match body.ending with
    | .closed => .ok (received body.frames)
    | .lost error => .error (some error)

/-- Whether the worker answers with an event stream. -/
def isEventStream (contentType : Option Text) : Bool :=
  contentType.any fun type =>
    "text/event-stream".toList.isPrefixOf ((trimStart type).map Char.toLower)

/-- What an attempt is made with: whether the endpoint is a loopback address,
whether the log names a job owner, the limits, and the worker's answer. -/
structure Exchange where
  secure : Bool
  owner : Bool
  responseLimit : Nat
  maxResponseBytes : Nat
  sent : SendResult
  /-- Whether the response timeout runs out first. -/
  timedOut : Bool

/-- The text of `require_secure_transport`. -/
def insecureReason : String :=
  "worker HTTP requires a loopback endpoint; use an authenticated encrypted "
    ++ "tunnel for remote workers; native worker TLS is not implemented"

/-- `first_output`: the whole response, or a stream whose first whole events
have arrived. -/
def firstOutput (exchange : Exchange) : Except Failure Response :=
  if !exchange.secure then
    .error (.final (.error 503 insecureReason "server_error" (some "secure_transport_required")))
  else
    match exchange.sent with
    | .failed sent reason => .error (.retry reason false (!sent))
    | .answered status contentType body =>
      if status < 200 ∨ 300 ≤ status then
        if status = 503 then
          .error (.retry "worker at capacity" true true)
        else if status = 401 ∨ status = 403 then
          .error (.final (.error 502 "worker rejected the coordinator's credentials" "server_error"
            none))
        else
          .error (.final (.whole status ((body.collect maxSmallBody).toOption.getD [])))
      else if exchange.owner && isEventStream contentType then
        .error (.final (.error 502 "job worker returned an unexpected stream"
          "server_error" (some "invalid_job_result")))
      else if !isEventStream contentType then
        let limit :=
          if exchange.owner then
            min exchange.maxResponseBytes exchange.responseLimit
          else exchange.maxResponseBytes
        match body.collect limit with
        | .ok bytes => .ok (.whole status bytes)
        | .error none =>
          .error (.final (.error 502
            s!"the worker's response exceeds the router's {limit}-byte limit"
            "server_error" (some "response_too_large")))
        | .error (some error) => .error (.retry s!"worker response lost: {error}" false false)
      else
        match awaitEvents {} body.frames with
        | (some first, framer, frames) =>
          .ok (.stream {
            body := some { body with frames := frames }
            framer := framer
            first := some first
            done := hasDoneEvent first
            events := 0
            outcome := .clientDisconnected })
        | (none, _, _) =>
          match body.ending with
          | .lost error => .error (.retry s!"worker stream lost before output: {error}" false false)
          | .closed => .error (.retry "worker closed the stream before output" false false)

/-- `forward`. -/
def forward (exchange : Exchange) : Except Failure Response :=
  if exchange.timedOut then
    .error (.final (.error 504 "the worker did not respond in time"
      "server_error" (some "worker_timeout")))
  else firstOutput exchange

/-! ## Waiting for a slot -/

variable {n : Nat} {R : Type}

/-- What one call of `try_pick` sees: where the rotation starts, the workers
as it comes to them, the affinity directory's answer, and whether every worker
has reported by the end. -/
structure Snapshot (n : Nat) where
  start : Nat
  workers : Fin n → Worker
  preferred : Option (Fin n × Nat)
  allReported : Bool

inductive Pick (n : Nat)
  | slot (index : Fin n)
  | noSlot (reason : NoSlot)
deriving Repr, DecidableEq

/-- What a slot is asked for. -/
structure Wanted where
  path : RoutedPath
  model : Option String
  work : RequestWork

/-- The workers in the order of the loops. -/
def Snapshot.order [NeZero n] (snapshot : Snapshot n) : List (Fin n) :=
  (List.range n).map (System.rotated snapshot.start)

/-- The loop of `try_pick_audio`. -/
def scanAudio (config : CoordinatorConfig) (exclude : List (Fin n))
    (workers : Fin n → Worker) : List (Fin n) → AudioScan → Pick n
  | [], scan => .noSlot scan.verdict
  | index :: rest, scan =>
    match lookAudio config exclude index (workers index) scan with
    | (_, true) => .slot index
    | (next, false) => scanAudio config exclude workers rest next

/-- `try_pick`. -/
def tryPick (R : Type) [NeZero n] [RatioOps R] (config : CoordinatorConfig) (wanted : Wanted)
    (exclude : List (Fin n)) (snapshot : Snapshot n) : Pick n :=
  if wanted.path = .transcriptions then
    scanAudio config exclude snapshot.workers snapshot.order {}
  else
    let args : PickArgs n := {
      path := wanted.path
      model := wanted.model
      work := wanted.work
      exclude := exclude
      preferred := snapshot.preferred }
    let scan : Scan n R := snapshot.order.foldl
      (fun scan index => look config args index (snapshot.workers index) scan)
      {}
    match scan.best with
    | some best => .slot best.index
    | none => .noSlot (scan.verdict wanted.model snapshot.allReported)

/-- `pick_after_audio_refresh`: looks until one is not busy; the last one
stands. -/
def pickAfterAudioRefresh (R : Type) [NeZero n] [RatioOps R]
    (config : CoordinatorConfig) (wanted : Wanted) (exclude : List (Fin n)) :
    List (Snapshot n) → Pick n
  | [] => .noSlot .busy
  | snapshot :: rest =>
    match tryPick R config wanted exclude snapshot with
    | .noSlot .busy => pickAfterAudioRefresh R config wanted exclude rest
    | settled => settled

/-- What happens to a request that waits: the looks it takes at once, whether
the queue is full, and the looks it takes from the queue before its time runs
out. -/
structure Waiting (n : Nat) where
  atOnce : List (Snapshot n)
  queueFull : Bool
  queued : List (Snapshot n)

/-- `acquire`. -/
def acquire (R : Type) [NeZero n] [RatioOps R] (config : CoordinatorConfig) (wanted : Wanted)
    (exclude : List (Fin n)) (waiting : Waiting n) : Except Reject (Fin n) :=
  match pickAfterAudioRefresh R config wanted exclude waiting.atOnce with
  | .slot index => .ok index
  | .noSlot (.reject reason) => .error reason
  | .noSlot .busy =>
    if waiting.queueFull then .error .queueFull
    else
      match pickAfterAudioRefresh R config wanted exclude waiting.queued with
      | .slot index => .ok index
      | .noSlot (.reject reason) => .error reason
      | .noSlot .busy => .error .queueTimeout

/-! ## Trying one worker after another -/

/-- An attempt: the worker, what went over the wire, and what came of it. -/
structure Attempt (n : Nat) where
  index : Fin n
  exchange : Exchange
  result : Except Failure Response

/-- How a request ends. -/
inductive Verdict
  | answered (response : Response)
  | rejected (reason : Reject)
  /-- `owner_changed`: the worker no longer offers the job. -/
  | ownerChanged

/-- The attempts of a request, and its end. -/
structure Trace (n : Nat) where
  attempts : List (Attempt n)
  verdict : Verdict

/-- What the world answers in one round of a loop: to the wait for a slot and
to the attempt on the worker that is picked. -/
structure Round (n : Nat) where
  waiting : Waiting n
  exchange : Fin n → Exchange

/-- The kinds of requests that are not safe to repeat. -/
def unrepeatable (path : RoutedPath) : Bool :=
  path = .transcriptions || path = .embeddings

/-- Put the attempt before the rest of the trace. -/
def Trace.after (attempt : Attempt n) (trace : Trace n) : Trace n :=
  { trace with attempts := attempt :: trace.attempts }

/-- What `route` makes of a rejection, once attempts were made. -/
def afterAttempts (tried : List (Fin n)) (lastAdmissionOnly : Bool) (reason : Reject) : Reject :=
  match reason with
  | .exhausted | .unavailable =>
    if tried ≠ [] then
      if lastAdmissionOnly then .allRefused else .exhausted
    else reason
  | other => other

/-- The loop of `route`.  The fuel bounds its rounds; nothing is returned when
it runs out. -/
def routeLoop (R : Type) [NeZero n] [RatioOps R] (config : CoordinatorConfig)
    (wanted : Wanted) (world : Nat → Round n) :
    Nat → List (Fin n) → Bool → Option (Trace n)
  | 0, _, _ => none
  | fuel + 1, tried, lastAdmissionOnly =>
    let round := world tried.length
    match acquire R config wanted tried round.waiting with
    | .error reason =>
      some {
        attempts := []
        verdict := .rejected (afterAttempts tried lastAdmissionOnly reason) }
    | .ok index =>
      let attempt : Attempt n := {
        index := index
        exchange := round.exchange index
        result := forward (round.exchange index) }
      match attempt.result with
      | .ok response => some ⟨[attempt], .answered response⟩
      | .error (.final response) => some ⟨[attempt], .answered response⟩
      | .error (.retry _ admission safe) =>
        if unrepeatable wanted.path && !safe then
          some ⟨[attempt], .rejected .exhausted⟩
        else
          (routeLoop R config wanted world fuel (tried ++ [index])
            (lastAdmissionOnly && admission)).map (Trace.after attempt)

/-- `route`, from the point where the request has been read. -/
def route (R : Type) [NeZero n] [RatioOps R] (config : CoordinatorConfig) (wanted : Wanted)
    (world : Nat → Round n) (fuel : Nat) : Option (Trace n) :=
  routeLoop R config wanted world fuel [] true

/-- What the world answers in one round of `embedding_batch`: also whether the
worker still offers the job it was chosen for. -/
structure BatchRound (n : Nat) extends Round n where
  stillOffered : Fin n → Bool

/-- The slot of a round: the reserved one if there is one. -/
def batchSlot (R : Type) [NeZero n] [RatioOps R] (config : CoordinatorConfig)
    (wanted : Wanted) (reserved : Option (Fin n)) (excluded : List (Fin n))
    (waiting : Waiting n) : Except Reject (Fin n) :=
  match reserved with
  | some index => .ok index
  | none => acquire R config wanted excluded waiting

/-- The loop of `embedding_batch`; `reserved` is the slot a first batch comes
with. -/
def batchLoop (R : Type) [NeZero n] [RatioOps R] (config : CoordinatorConfig)
    (wanted : Wanted) (owners : Fin n → Bool) (world : Nat → BatchRound n) :
    Nat → Option (Fin n) → List (Fin n) → Nat → Option (Trace n)
  | 0, _, _, _ => none
  | fuel + 1, reserved, excluded, attempts =>
    let round := world attempts
    match batchSlot R config wanted reserved excluded round.waiting with
    | .error reason => some ⟨[], .rejected reason⟩
    | .ok index =>
      if !(owners index && round.stillOffered index) then
        some ⟨[], .ownerChanged⟩
      else
        let attempt : Attempt n := {
          index := index
          exchange := round.exchange index
          result := forward (round.exchange index) }
        match attempt.result with
        | .ok response => some ⟨[attempt], .answered response⟩
        | .error (.final response) => some ⟨[attempt], .answered response⟩
        | .error (.retry _ _ true) =>
          (batchLoop R config wanted owners world fuel none
            (excluded ++ [index]) (attempts + 1)).map
            (Trace.after attempt)
        | .error (.retry _ _ false) => some ⟨[attempt], .rejected .exhausted⟩

/-- `embedding_batch`: workers without an owner for the job are excluded from
the start. -/
def embeddingBatch (R : Type) [NeZero n] [RatioOps R] (config : CoordinatorConfig) (model : String)
    (units : Nat) (owners : Fin n → Bool) (reserved : Option (Fin n)) (world : Nat → BatchRound n)
    (fuel : Nat) : Option (Trace n) :=
  batchLoop R config
    { path := .embeddings
      model := some model
      work := { context := none, units := units } }
    owners world fuel reserved
    ((List.finRange n).filter fun index => !owners index) 0

end Joshua.Coordinator
