/-
Module: Joshua.Model.ExpertLayer
Purpose: A routed expert layer, run locally (`moe.rs`, `dispatch_prefill`,
  `dispatch_decode`) and by owners of complete experts
  (`distributed/expert.rs`, `Coordinator::forward`), and the bytes of the
  frames (`encode`, `decode`).
Trusted boundary: tensors are lists of rows; the arithmetic, candle's sum over
  the stacked slots and the experts are arguments; the authenticated channels
  deliver the frames that are sent, and JSON gives a message back; devices are
  left out.
-/
import Joshua.Foundation.Gather
import Joshua.Model.PipelineWire
import Mathlib.Data.List.Dedup
import Mathlib.Data.Nat.Log

namespace Joshua.Experts
open Joshua.Foundation

section

/-! ## Rows -/

/-- The arithmetic of an element. -/
class Scalar (V : Type) where
  zero : V
  add : V → V → V
  mul : V → V → V
  isFinite : V → Bool

abbrev Row (V : Type) (hidden : Nat) := Vector V hidden

variable {V : Type} {hidden : Nat}

/-- A row times its routing weight. -/
def weighted [Scalar V] (weight : V) (row : Row V hidden) : Row V hidden :=
  row.map fun value => Scalar.mul value weight

def plus [Scalar V] (left right : Row V hidden) : Row V hidden :=
  Vector.zipWith Scalar.add left right

def zeroRow [Scalar V] : Row V hidden :=
  Vector.replicate hidden Scalar.zero

def finiteRow [Scalar V] (row : Row V hidden) : Bool :=
  row.toList.all Scalar.isFinite

/-! ## Local dispatch -/

inductive DispatchError
  | expertId (expert experts token slot : Nat)
  | outputShape (found expected : Nat)
  | token (token : Nat)
  /-- A row that an expert did not return. -/
  | missing (expert : Nat)
deriving Repr, DecidableEq

/-- How the experts of a layer are run: expert and rows to rows. -/
abbrev Forward (V : Type) (hidden : Nat) :=
  Nat → List (Row V hidden) → Except DispatchError (List (Row V hidden))

/-- `check_expert_id` for all routes. -/
def checkExpertIds (experts k : Nat) (ids : List Nat) : Except DispatchError Unit :=
  match ids.zipIdx.find? fun pair => experts ≤ pair.1 with
  | some (expert, route) => .error (.expertId expert experts (route / k) (route % k))
  | none => .ok ()

/-- A token's route to an expert. -/
structure TokenRoute (V : Type) where
  expert : Nat
  token : Nat
  weight : V

/-- The routes, token by token and slot by slot. -/
def tokenRoutes (k : Nat) (ids : List Nat) (weights : List V) : List (TokenRoute V) :=
  (ids.zip weights).zipIdx.map fun ((expert, weight), route) =>
    { expert, token := route / k, weight }

/-- `index_select`. -/
def selectRows (input : List (Row V hidden)) (routes : List (TokenRoute V)) :
    Except DispatchError (List (Row V hidden)) :=
  routes.mapM fun route =>
    match input[route.token]? with
    | some row => .ok row
    | none => .error (.token route.token)

/-- `accumulate_cpu_expert`: add the weighted rows in route order. -/
def accumulateCpuExpert [Scalar V] (out : List (Row V hidden)) (routes : List (TokenRoute V))
    (total : List (Row V hidden)) : Except DispatchError (List (Row V hidden)) :=
  if out.length ≠ routes.length then
    .error (.outputShape out.length routes.length)
  else
    (routes.zip out).foldlM (fun total (route, row) =>
      if route.token < total.length then
        .ok (total.modify route.token (plus · (weighted route.weight row)))
      else
        .error (.token route.token)) total

/-- The loop over the experts of `dispatch_prefill`; one without tokens is
skipped. -/
def runExperts [Scalar V] (forward : Forward V hidden)
    (input : List (Row V hidden)) : Nat → List (List (TokenRoute V)) →
    List (Row V hidden) → Except DispatchError (List (Row V hidden))
  | _, [], total => .ok total
  | expert, routes :: rest, total =>
    if routes.isEmpty then
      runExperts forward input (expert + 1) rest total
    else do
      let selected ← selectRows input routes
      let out ← forward expert selected
      let next ← accumulateCpuExpert out routes total
      runExperts forward input (expert + 1) rest next

/-- `dispatch_prefill`. -/
def dispatchPrefill [Scalar V] (experts : Nat) (forward : Forward V hidden)
    (input : List (Row V hidden)) (ids : List Nat) (weights : List V)
    (k : Nat) : Except DispatchError (List (Row V hidden)) := do
  checkExpertIds experts k ids
  runExperts forward input 0
    (distribute experts TokenRoute.expert (tokenRoutes k ids weights))
    (List.replicate input.length zeroRow)

/-- candle's `sum(0)` over stacked blocks of rows. -/
abbrev SumBlocks (V : Type) (hidden : Nat) :=
  List (List (Row V hidden)) → List (Row V hidden)

/-- `broadcast_mul` of the slots by their weights, and `sum(0)`. -/
def sumSlots [Scalar V] (sum : SumBlocks V hidden) (slots : List (List (Row V hidden)))
    (weights : List V) : List (Row V hidden) :=
  sum ((slots.zip weights).map fun (slot, weight) => slot.map (weighted weight))

/-- A slot of `dispatch_decode`. -/
def runSlot (experts : Nat) (forward : Forward V hidden) (input : List (Row V hidden))
    (expert slot : Nat) : Except DispatchError (List (Row V hidden)) :=
  if experts ≤ expert then .error (.expertId expert experts 0 slot)
  else forward expert input

/-- `dispatch_decode`. -/
def dispatchDecode [Scalar V] (sum : SumBlocks V hidden) (experts : Nat)
    (forward : Forward V hidden) (input : List (Row V hidden)) (ids : List Nat) (weights : List V) :
    Except DispatchError (List (Row V hidden)) := do
  let slots ← ids.zipIdx.mapM fun pair => runSlot experts forward input pair.1 pair.2
  return sumSlots sum slots weights

/-! ## Messages -/

structure RowId where
  session : UInt64
  token : UInt64
deriving Repr, DecidableEq

structure RouteRow where
  route : Nat
  row : RowId
  expert : Nat
deriving Repr, DecidableEq

structure Message where
  identity : Digest
  forward : Nat
  decode : Bool
  rows : List RouteRow
deriving DecidableEq

/-- The digits of a number in JSON. -/
def decimalWidth (number : Nat) : Nat :=
  Nat.log 10 number + 1

/-- The length of a row in JSON. -/
def rowWidth (route session token expert : Nat) : Nat :=
  "\x7b\"route\":".length + decimalWidth route +
    ",\"row\":\x7b\"session\":".length + decimalWidth session +
    ",\"token\":".length + decimalWidth token +
    "\x7d,\"expert\":".length + decimalWidth expert + "\x7d".length

def RouteRow.width (row : RouteRow) : Nat :=
  rowWidth row.route row.row.session.toNat row.row.token.toNat row.expert

/-- The length of a message without its rows in JSON. -/
def envelopeWidth (identity : List Nat) (forward : Nat) (decode : Bool) : Nat :=
  "\x7b\"identity\":[".length + ((identity.map decimalWidth).sum + (identity.length - 1)) +
    "],\"forward\":".length + decimalWidth forward +
    ",\"decode\":".length + (if decode then 4 else 5) +
    ",\"rows\":[]\x7d".length

/-- The length of a message in JSON: the rows are separated by commas. -/
def Message.width (message : Message) : Nat :=
  envelopeWidth (message.identity.toList.map UInt8.toNat) message.forward message.decode +
    ((message.rows.map RouteRow.width).sum + (message.rows.length - 1))

structure Limits where
  rows : Nat
  routes : Nat
  sessions : Nat
  frameBytes : Nat

/-- `frame_reservation`: a frame with as many and as long rows as can be. -/
def frameReservation (hidden : Nat) (limits : Limits) : Nat :=
  envelopeWidth (List.replicate 32 255) (2 ^ 64 - 1) false +
    (limits.routes * (rowWidth (2 ^ 64 - 1) (2 ^ 64 - 1) (2 ^ 64 - 1) (2 ^ 64 - 1) + 1) - 1) +
    limits.routes * hidden * 4 + 4

/-- `Placement`, with what `from_gguf` has checked. -/
structure Placement (hidden : Nat) where
  identity : Digest
  /-- The owner of each expert. -/
  owners : List Nat
  limits : Limits
  hidden_some : 1 ≤ hidden
  experts_some : owners ≠ []
  experts_few : owners.length ≤ 4096
  routes_some : 1 ≤ limits.routes
  routes_few : limits.routes ≤ 16384
  frames_fit : frameReservation hidden limits ≤ limits.frameBytes

def Placement.expertCount (placement : Placement hidden) : Nat :=
  placement.owners.length

def Placement.ownerCount (placement : Placement hidden) : Nat :=
  placement.owners.foldl max 0 + 1

/-- The ways an exchange can fail, one for each check of the source; `closed`
is a channel that was shut down. -/
inductive ExpertError
  | jobFailed
  | rowBound
  | duplicateRow
  | sessionBound
  | activationShape
  | routingShape
  | nonfiniteWeight
  | invalidExpert
  | nonfinitePayload
  | byteBound
  | byteCount
  | routeBound
  | payloadShape
  | placementMismatch
  | invalidRoute
  | unownedExpert
  | noncanonicalOrder
  | rowSessionBound
  | decodePositions
  | inputShape
  | inconsistentDecode
  | unansweredOwner
  | closed
  | responseMismatch
  | dispatch (error : DispatchError)
  | exhausted
deriving Repr, DecidableEq

/-- What goes over a channel. -/
structure Frame (V : Type) (hidden : Nat) where
  message : Message
  values : List (Row V hidden)

/-- Length of the metadata, metadata and payload. -/
def Frame.bytes (frame : Frame V hidden) : Nat :=
  4 + frame.message.width + frame.values.length * hidden * 4

/-- `encode`. -/
def encode [Scalar V] (placement : Placement hidden) (message : Message)
    (values : List (Row V hidden)) : Except ExpertError (Frame V hidden) :=
  let frame : Frame V hidden := { message, values }
  if !values.all finiteRow then .error .nonfinitePayload
  else if placement.limits.frameBytes < frame.bytes then .error .byteBound
  else .ok frame

/-- `decode`. -/
def decode [Scalar V] (placement : Placement hidden) (frame : Frame V hidden) :
    Except ExpertError (Message × List (Row V hidden)) :=
  if placement.limits.frameBytes < frame.bytes then .error .byteCount
  else if placement.limits.routes < frame.message.rows.length then
    .error .routeBound
  else if frame.values.length ≠ frame.message.rows.length then
    .error .payloadShape
  else if !frame.values.all finiteRow then .error .nonfinitePayload
  else .ok (frame.message, frame.values)

/-! ## An owner -/

/-- The loop of `validate_rows`: the routes so far, and the last row. -/
def checkRows (placement : Placement hidden) (owner : Nat) :
    List RouteRow → List Nat → Option RouteRow → Except ExpertError Unit
  | [], _, _ => .ok ()
  | row :: rest, routes, previous =>
    if ¬ (row.route < placement.limits.routes ∧ row.route ∉ routes) then
      .error .invalidRoute
    else if placement.owners[row.expert]? ≠ some owner then
      .error .unownedExpert
    else if ¬ previous.all fun prior =>
        prior.expert < row.expert ||
          (prior.expert = row.expert && prior.route < row.route) then
      .error .noncanonicalOrder
    else
      checkRows placement owner rest (row.route :: routes) (some row)

/-- `validate_rows`. -/
def validateRows (placement : Placement hidden) (owner : Nat)
    (rows : List RouteRow) : Except ExpertError Unit :=
  if placement.limits.routes < rows.length then .error .routeBound
  else do
    checkRows placement owner rows [] none
    if (rows.map RouteRow.row).dedup.length ≤ placement.limits.rows ∧
        (rows.map fun row => row.row.session).dedup.length ≤ placement.limits.sessions then
      .ok ()
    else
      .error .rowSessionBound

/-- The experts of an owner, each on a block of rows. -/
abbrev OwnedExperts (V : Type) (hidden : Nat) :=
  Nat → Option (List (Row V hidden) → List (Row V hidden))

/-- One run of an expert, on the rows that are its own. -/
def runExpert (experts : OwnedExperts V hidden) (expert : Nat) (block : List (Row V hidden)) :
    Except ExpertError (List (Row V hidden)) :=
  match experts expert with
  | some forward => .ok (forward block)
  | none => .error .unownedExpert

/-- The rows of one expert. -/
def answerRun (experts : OwnedExperts V hidden) (run : List (RouteRow × Row V hidden)) :
    Except ExpertError (List (Row V hidden)) :=
  match run with
  | [] => .ok []
  | (row, _) :: _ => runExpert experts row.expert (run.map Prod.snd)

/-- `execute_rows`: in decode every route runs its expert on the one
activation, else neighbouring rows of one expert are run together. -/
def executeRows [DecidableEq V] (experts : OwnedExperts V hidden) (request : Message)
    (values : List (Row V hidden)) : Except ExpertError (List (Row V hidden)) :=
  match request.decode, values with
  | true, activation :: _ =>
    if values.all (· = activation) then do
      let outputs ← request.rows.mapM fun row => runExpert experts row.expert [activation]
      return outputs.flatten
    else
      .error .inconsistentDecode
  | _, _ => do
      let runs := (request.rows.zip values).splitBy fun left right =>
        left.1.expert == right.1.expert
      let outputs ← runs.mapM (answerRun experts)
      return outputs.flatten

/-- One round of `serve`: the answer to a frame. -/
def serveOne [Scalar V] [DecidableEq V] (placement : Placement hidden)
    (owner : Nat) (experts : OwnedExperts V hidden) (sequence : Nat)
    (frame : Frame V hidden) : Except ExpertError (Frame V hidden) := do
  let (request, values) ← decode placement frame
  if ¬ (request.identity = placement.identity ∧ request.forward = sequence)
  then
    .error .placementMismatch
  else do
    validateRows placement owner request.rows
    if request.decode ∧ 1 < (request.rows.map RouteRow.row).dedup.length then
      .error .decodePositions
    else if request.rows.length ≠ values.length then
      .error .inputShape
    else do
      let output ← executeRows experts request values
      encode placement request output

/-! ## The coordinator -/

/-- What a forward pass is given: the rows' names, their activations, and the
flattened routing tables with the number of slots of a row. -/
structure Batch (V : Type) (hidden : Nat) where
  rows : List RowId
  input : List (Row V hidden)
  selected : Nat
  ids : List Nat
  weights : List V

/-- The checks of `forward_inner` before anything is sent. -/
def checkBatch [Scalar V] (placement : Placement hidden)
    (batch : Batch V hidden) : Except ExpertError Unit :=
  if ¬ (batch.rows ≠ [] ∧ batch.rows.length ≤ placement.limits.rows) then
    .error .rowBound
  else if batch.rows.dedup.length ≠ batch.rows.length then
    .error .duplicateRow
  else if placement.limits.sessions < (batch.rows.map RowId.session).dedup.length then
    .error .sessionBound
  else if batch.input.length ≠ batch.rows.length then
    .error .activationShape
  else if ¬ (batch.ids.length = batch.rows.length * batch.selected ∧
      0 < batch.selected ∧ batch.ids.length ≤ placement.limits.routes ∧
      batch.weights.length = batch.ids.length) then
    .error .routingShape
  else if !batch.weights.all Scalar.isFinite then
    .error .nonfiniteWeight
  else
    .ok ()

/-- A route as it is sent, with its owner. -/
structure OwnedRoute where
  owner : Nat
  row : RouteRow

/-- Name the owner of a route. -/
def ownedRoute (placement : Placement hidden) (batch : Batch V hidden)
    (expert number : Nat) : Except ExpertError OwnedRoute :=
  match placement.owners[expert]?, batch.rows[number / batch.selected]? with
  | some owner, some row => .ok { owner, row := { route := number, row, expert } }
  | _, _ => .error .invalidExpert

def ownedRoutes (placement : Placement hidden) (batch : Batch V hidden) :
    Except ExpertError (List OwnedRoute) :=
  batch.ids.zipIdx.mapM fun (expert, number) => ownedRoute placement batch expert number

/-- The rows of an owner's request. -/
def requestRows (routes : List OwnedRoute) : List RouteRow :=
  (routes.map OwnedRoute.row).mergeSort (pairLe RouteRow.expert RouteRow.route)

/-- The activations of an owner's request. -/
def bucketValues (batch : Batch V hidden) (rows : List RouteRow) : List (Row V hidden) :=
  rows.filterMap fun row => batch.input[row.route / batch.selected]?

/-- The answers of the owners, joined in the order of the owners; `order` is
the order in which they come in. -/
def joinAnswers {α : Type} (count : Nat) (order : List Nat)
    (answer : Nat → Except ExpertError α) : Except ExpertError (List α) :=
  let slots := fillSlots count order answer
  slots.mapM fun slot => slot.getD (.error .unansweredOwner)

/-- The expert that returns the rows it was given. -/
def returnedExpert (outputs : List (List (Row V hidden))) : Forward V hidden :=
  fun expert _ =>
    match outputs[expert]? with
    | some rows => .ok rows
    | none => .error (.missing expert)

/-- A request with its rows. -/
def requestFor (placement : Placement hidden) (sequence : Nat)
    (batch : Batch V hidden) (rows : List RouteRow) : Message where
  identity := placement.identity
  forward := sequence
  decode := batch.rows.length == 1
  rows := rows

/-- The thread of an owner: send it its packet and take the answer. -/
def askOwner [Scalar V] (placement : Placement hidden)
    (answer : Nat → Frame V hidden → Except ExpertError (Frame V hidden))
    (packets : List (Frame V hidden)) (owner : Nat) :
    Except ExpertError (Message × List (Row V hidden)) :=
  match packets[owner]? with
  | some packet => (answer owner packet).bind (decode placement)
  | none => .error .unansweredOwner

/-- The rows of an answer, which must be those of the request. -/
def returnedRows (response : Message × List (Row V hidden)) (request : Message) :
    Except ExpertError (List (RouteRow × Row V hidden)) :=
  if response.1 = request then .ok (response.1.rows.zip response.2)
  else .error .responseMismatch

/-- The middle of `forward_inner`: send each owner its routes and collect the
rows that come back by expert. `answer` is the exchange of a frame with an
owner. -/
def exchange [Scalar V] (placement : Placement hidden) (sequence : Nat) (order : List Nat)
    (answer : Nat → Frame V hidden → Except ExpertError (Frame V hidden)) (batch : Batch V hidden)
    (routes : List OwnedRoute) :
    Except ExpertError (List (List (Row V hidden))) := do
  let requests :=
    (distribute placement.ownerCount OwnedRoute.owner routes).map fun routes =>
      requestFor placement sequence batch (requestRows routes)
  let packets ← requests.mapM fun request =>
    encode placement request (bucketValues batch request.rows)
  let responses ← joinAnswers placement.ownerCount order (askOwner placement answer packets)
  let returned ← (responses.zip requests).mapM fun (response, request) =>
    returnedRows response request
  return (distribute placement.expertCount (fun entry => entry.1.expert)
    returned.flatten).map fun entries => entries.map Prod.snd

/-- The end of `forward_inner`: one row is summed slot by slot, several are
dispatched to experts that return what has come back. -/
def combine [Scalar V] (sum : SumBlocks V hidden) (placement : Placement hidden)
    (batch : Batch V hidden) (outputs : List (List (Row V hidden))) :
    Except ExpertError (List (Row V hidden)) :=
  if batch.rows.length = 1 then
    match readBack outputs batch.ids (List.replicate placement.expertCount 0) with
    | some slots => .ok (sumSlots sum (slots.map fun row => [row]) batch.weights)
    | none => .error (.dispatch (.missing 0))
  else
    (dispatchPrefill placement.expertCount (returnedExpert outputs)
      batch.input batch.ids batch.weights batch.selected).mapError .dispatch

/-- `forward_inner`. -/
def forwardInner [Scalar V] (sum : SumBlocks V hidden)
    (placement : Placement hidden) (sequence : Nat) (order : List Nat)
    (answer : Nat → Frame V hidden → Except ExpertError (Frame V hidden))
    (batch : Batch V hidden) : Except ExpertError (List (Row V hidden)) := do
  checkBatch placement batch
  let routes ← ownedRoutes placement batch
  let outputs ← exchange placement sequence order answer batch routes
  let output ← combine sum placement batch outputs
  if sequence + 1 < u64Limit then .ok output else .error .exhausted

/-- The state of a job. -/
structure Coordinator where
  sequence : Nat
  failed : Bool

/-- `forward`: a failure ends the job. -/
def Coordinator.forward [Scalar V] (coordinator : Coordinator) (sum : SumBlocks V hidden)
    (placement : Placement hidden) (order : List Nat)
    (answer : Nat → Frame V hidden → Except ExpertError (Frame V hidden)) (batch : Batch V hidden) :
    Except ExpertError (List (Row V hidden)) × Coordinator :=
  if coordinator.failed then (.error .jobFailed, coordinator)
  else
    match forwardInner sum placement coordinator.sequence order answer batch
    with
    | .ok output => (.ok output, { coordinator with sequence := coordinator.sequence + 1 })
    | .error error => (.error error, { coordinator with failed := true })

/-! ## The same experts here and there -/

/-- Experts that are functions of a row, run locally. -/
def localExperts (expert : Nat → Row V hidden → Row V hidden) : Forward V hidden :=
  fun index block => .ok (block.map (expert index))

/-- The same experts, on the owner that has them. -/
def ownedExperts (placement : Placement hidden) (owner : Nat)
    (expert : Nat → Row V hidden → Row V hidden) : OwnedExperts V hidden :=
  fun index =>
    if placement.owners[index]? = some owner then
      some fun block => block.map (expert index)
    else none

/-- A job: the coordinator, and the sequence of each owner as long as its
connection is open. -/
structure Job where
  coordinator : Coordinator
  owners : Nat → Option Nat

/-- A job as it is connected. -/
def Job.connected : Job where
  coordinator := { sequence := 0, failed := false }
  owners := fun _ => some 0

/-- The exchange of a frame with an owner of the job. -/
def Job.answer [Scalar V] [DecidableEq V] (job : Job) (placement : Placement hidden)
    (expert : Nat → Row V hidden → Row V hidden) (owner : Nat) (frame : Frame V hidden) :
    Except ExpertError (Frame V hidden) :=
  match job.owners owner with
  | some sequence =>
    serveOne placement owner (ownedExperts placement owner expert) sequence frame
  | none => .error .closed

/-- A forward pass of the job: an owner that has answered goes on to the next
sequence, and a failure shuts every connection down. -/
def Job.forward [Scalar V] [DecidableEq V] (job : Job) (sum : SumBlocks V hidden)
    (placement : Placement hidden) (expert : Nat → Row V hidden → Row V hidden) (order : List Nat)
    (batch : Batch V hidden) : Except ExpertError (List (Row V hidden)) × Job :=
  match job.coordinator.forward sum placement order (job.answer placement expert) batch with
  | (.ok output, coordinator) =>
    (.ok output, { coordinator, owners := fun owner => (job.owners owner).map (· + 1) })
  | (.error error, coordinator) => (.error error, { coordinator, owners := fun _ => none })

/-- Local dispatch: decode for one row, prefill for several. -/
def localDispatch [Scalar V] (sum : SumBlocks V hidden) (placement : Placement hidden)
    (expert : Nat → Row V hidden → Row V hidden) (batch : Batch V hidden) :
    Except DispatchError (List (Row V hidden)) :=
  if batch.rows.length = 1 then
    dispatchDecode sum placement.expertCount (localExperts expert) batch.input
      batch.ids batch.weights
  else
    dispatchPrefill placement.expertCount (localExperts expert) batch.input
      batch.ids batch.weights batch.selected

end

variable {hidden : Nat}

/-! ## JSON, as `serde_json::to_vec` writes it -/

def decimal (number : Nat) : List UInt8 :=
  (Nat.toDigits 10 number).map fun c => UInt8.ofNat c.toNat

def commas (items : List (List UInt8)) : List UInt8 :=
  (ascii ",").intercalate items

def RouteRow.json (row : RouteRow) : List UInt8 :=
  ascii "\x7b\"route\":" ++ decimal row.route ++
    ascii ",\"row\":\x7b\"session\":" ++ decimal row.row.session.toNat ++
    ascii ",\"token\":" ++ decimal row.row.token.toNat ++
    ascii "\x7d,\"expert\":" ++ decimal row.expert ++ ascii "\x7d"

def Message.json (message : Message) : List UInt8 :=
  ascii "\x7b\"identity\":[" ++
    commas (message.identity.toList.map fun byte => decimal byte.toNat) ++
    ascii "],\"forward\":" ++ decimal message.forward ++
    ascii ",\"decode\":" ++ ascii (if message.decode then "true" else "false") ++
    ascii ",\"rows\":[" ++ commas (message.rows.map RouteRow.json) ++ ascii "]\x7d"

/-! ## Frames -/

inductive FrameError
  | nonfinitePayload
  | sizeOverflow
  | frameOverflow
  | byteBound
  | byteCount
  | metadataLength
  /-- What `serde_json` refuses. -/
  | metadata
  | routeBound
  | payloadShape
deriving Repr, DecidableEq

/-- `encode`: the length of the metadata, as a `u32`, the metadata and the
values. -/
def encodeBytes (placement : Placement hidden) (message : Message) (values : List Float32Bits) :
    Except FrameError (List UInt8) :=
  let header := message.json
  let size := header.length + values.length * 4 + 4
  if !values.all Float32Bits.isFinite then .error .nonfinitePayload
  else if u64Limit ≤ values.length * 4 then .error .sizeOverflow
  else if u64Limit ≤ size then .error .frameOverflow
  else if placement.limits.frameBytes < size then .error .byteBound
  else .ok (leBytes 4 header.length ++ header ++ values.flatMap fun value => leBytes 4 value.toNat)

/-- `decode`, with `serde_json::from_slice`. -/
def decodeBytes (fromSlice : List UInt8 → Option Message) (placement : Placement hidden)
    (bytes : List UInt8) : Except FrameError (Message × List Float32Bits) :=
  if ¬ (4 ≤ bytes.length ∧ bytes.length ≤ placement.limits.frameBytes) then .error .byteCount
  else
    let header := leValue (bytes.take 4)
    if bytes.length - 4 < header then .error .metadataLength
    else
      match fromSlice ((bytes.drop 4).take header) with
      | none => .error .metadata
      | some message =>
        let payload := bytes.drop (4 + header)
        let values := Pipeline.readValues payload
        if placement.limits.routes < message.rows.length then .error .routeBound
        else if u64Limit ≤ message.rows.length * hidden * 4 then .error .sizeOverflow
        else if payload.length ≠ message.rows.length * hidden * 4 then .error .payloadShape
        else if !values.all Float32Bits.isFinite then .error .nonfinitePayload
        else .ok (message, values)

end Joshua.Experts
