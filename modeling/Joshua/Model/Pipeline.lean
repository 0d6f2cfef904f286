/-
Module: Joshua.Model.Pipeline
Purpose: The pipeline's controller and workers (`Pipeline` and `Worker` in
  `distributed/pipeline.rs`): what each checks and keeps of its sessions, the
  calls of the controller with the threads of a batch, and the model whose
  stages they run, in one piece; how a controller divides the layers of a
  model among its workers (`split_layers`), and what a plan's validation and
  its naming of tensors say about the division.
Trusted boundary: the layers of a stage are a parameter; what the wires do is
  that a command is executed and answered, or that it fails; floating point
  numbers are any type with the operations of `Float64`, about which nothing is
  assumed
-/
import Joshua.Foundation.Conveyor
import Joshua.Model.Gguf
import Joshua.Model.Partition
import Joshua.Model.PipelineWire
import Mathlib.Data.Char

namespace Joshua.Pipeline
open Joshua.Foundation

/-- `HashMap<u64, _>`. -/
abbrev Table (β : Type) := AList fun _ : Nat => β

/-! ## Workers -/

section Worker
variable {S : Type}

/-- `CpuPipelineWeights`: the layers of one stage. -/
structure Weights (S : Type) where
  newState : S
  /-- State, tokens, activations, offset and the width of an activation. -/
  forward : S → List Token → List Float32Bits → Nat → Nat → Except String (S × List Float32Bits)

structure Session (S : Type) where
  state : S
  position : Nat
  sequence : Nat
deriving DecidableEq

/-- What changes of a worker: its sessions. -/
abbrev Worker (S : Type) := Table (Session S)

section
variable (plan : Plan) (rank : Nat)

/-- The number of activations a stage expects. -/
def inputLength (tokens : List Token) : Nat :=
  if rank = 0 then 0 else tokens.length * plan.hidden

/-- The number of values a stage answers with. -/
def outputLength (tokens : List Token) : Nat :=
  if rank + 1 = plan.stages.length then plan.vocab
  else tokens.length * plan.hidden

/-- `Worker::execute` with what it leaves of the worker, also where it fails:
`broken` is the state of a session behind a call of its layers that failed, and
the position has moved when the sequence is found to be exhausted. -/
def executeInPlace (weights : Weights S) (broken : S → List Token → S) (worker : Worker S)
    (packet : Packet) : Worker S × Except String (List Float32Bits) :=
  match packet.command with
  | .open id =>
    if ¬ (packet.values = [] ∧ worker.lookup id = none) then
      (worker, .error "duplicate/invalid session open")
    else if ¬ worker.keys.length < plan.limits.sessions then
      (worker, .error "session capacity exceeded")
    else (worker.insert id ⟨weights.newState, 0, 0⟩, .ok [])
  | .close id =>
    if ¬ (packet.values = [] ∧ (worker.lookup id).isSome) then
      (worker, .error "unknown/invalid session close")
    else (worker.erase id, .ok [])
  | .forward id sequence offset tokens =>
    if ¬ (tokens ≠ [] ∧ tokens.length ≤ plan.limits.chunk) then
      (worker, .error "invalid token chunk")
    else if ¬ tokens.all (fun token => token.toNat < plan.vocab) then
      (worker, .error "token outside vocabulary")
    else if ¬ offset + tokens.length < 2 ^ 64 then
      (worker, .error "position overflow")
    else if ¬ offset + tokens.length ≤ plan.limits.context then
      (worker, .error "context exhausted")
    else if packet.values.length ≠ inputLength plan rank tokens then
      (worker, .error "activation shape mismatch")
    else
      match worker.lookup id with
      | none => (worker, .error "unknown session")
      | some session =>
        if ¬ (offset = session.position ∧ sequence = session.sequence) then
          (worker, .error "out-of-order or duplicate forward")
        else
          match weights.forward session.state tokens packet.values offset plan.hidden with
          | .error message =>
            (worker.insert id { session with state := broken session.state tokens }, .error message)
          | .ok (state, output) =>
            let moved := ⟨state, offset + tokens.length, session.sequence⟩
            if ¬ session.sequence + 1 < 2 ^ 64 then
              (worker.insert id moved, .error "session sequence exhausted")
            else (worker.insert id { moved with sequence := session.sequence + 1 }, .ok output)
  | _ => (worker, .error "unexpected worker command")

/-- `Worker::execute` where what it leaves behind a failure does not matter. -/
def execute (weights : Weights S) (worker : Worker S) (packet : Packet) :
    Except String (Worker S × List Float32Bits) :=
  match executeInPlace plan rank weights (fun state _ => state) worker packet with
  | (after, .ok output) => .ok (after, output)
  | (_, .error message) => .error message

end

/-- A worker behind some commands, and the `Forward`s it has accepted for each
session since that was opened: sequence number, offset and length. -/
structure Served (S : Type) where
  worker : Worker S
  accepted : Nat → List (Nat × Nat × Nat)

/-- The record behind a command and its result. -/
def recorded (accepted : Nat → List (Nat × Nat × Nat)) (command : Command)
    (result : Except String (List Float32Bits)) : Nat → List (Nat × Nat × Nat) :=
  match result, command with
  | .ok _, .open id => Function.update accepted id []
  | .ok _, .forward id sequence offset tokens => Function.update accepted id
      (accepted id ++ [(sequence, offset, tokens.length)])
  | _, _ => accepted

/-- One more command. -/
def Served.serve (plan : Plan) (rank : Nat) (weights : Weights S) (broken : S → List Token → S)
    (served : Served S) (packet : Packet) : Served S :=
  let executed := executeInPlace plan rank weights broken served.worker packet
  ⟨executed.1, recorded served.accepted packet.command executed.2⟩

/-- A worker that has executed commands, from its start. -/
def Served.run (plan : Plan) (rank : Nat) (weights : Weights S)
    (broken : S → List Token → S) (packets : List Packet) : Served S :=
  packets.foldl (Served.serve plan rank weights broken) ⟨∅, fun _ => []⟩

end Worker

/-! ## The controller -/

structure Input where
  session : Nat
  offset : Nat
  tokens : List Token
deriving Repr, DecidableEq, Inhabited

structure Job where
  index : Nat
  id : Nat
  sequence : Nat
  offset : Nat
  tokens : List Token
  values : List Float32Bits
deriving Repr, DecidableEq, Inhabited

/-- The input that a job was made of. -/
def Job.input (job : Job) : Input := ⟨job.id, job.offset, job.tokens⟩

/-- What changes of a controller; a session has its position and its sequence
number. -/
structure Controller where
  sessions : Table (Nat × Nat)
  nextId : Nat
  failed : Bool
  cancelled : Bool

namespace Controller

/-- Behind `connect` or `deploy`. -/
def connected : Controller := ⟨∅, 0, false, false⟩

def ready (controller : Controller) : Except String Unit :=
  if ¬ (controller.failed = false ∧ controller.cancelled = false) then
    .error "pipeline failed; restart every worker with a fresh job UUID"
  else .ok ()

def abort (controller : Controller) : Controller :=
  { controller with failed := true, cancelled := true, sessions := ∅ }

/-- `open` up to its commands. -/
def «open» (plan : Plan) (controller : Controller) : Except String (Controller × Nat) :=
  match controller.ready with
  | .error message => .error message
  | .ok () =>
    if ¬ controller.sessions.keys.length < plan.limits.sessions then
      .error "session capacity exceeded"
    else if ¬ controller.nextId + 1 < 2 ^ 64 then
      .error "session identifiers exhausted"
    else .ok ({ controller with nextId := controller.nextId + 1 }, controller.nextId)

/-- `close` up to its commands. -/
def close (controller : Controller) (id : Nat) : Except String Unit :=
  match controller.ready with
  | .error message => .error message
  | .ok () =>
    if ¬ (controller.sessions.lookup id).isSome then
      .error "unknown session"
    else .ok ()

/-- One round of the validation in `forward_batch`. -/
def admitInput (plan : Plan) (sessions : Table (Nat × Nat)) (index : Nat)
    (input : Input) : Except String (Table (Nat × Nat) × Job) :=
  match sessions.lookup input.session with
  | none => .error "unknown session"
  | some (position, sequence) =>
    if input.offset ≠ position then
      .error "input offset is not contiguous"
    else if ¬ (input.tokens ≠ [] ∧ input.tokens.length ≤ plan.limits.chunk) then
      .error "invalid chunk size"
    else if ¬ input.tokens.all (fun token => token.toNat < plan.vocab) then
      .error "token outside vocabulary"
    else if ¬ position + input.tokens.length < 2 ^ 64 then
      .error "position overflow"
    else if ¬ position + input.tokens.length ≤ plan.limits.context then
      .error "context exhausted"
    else if ¬ sequence + 1 < 2 ^ 64 then .error "sequence exhausted"
    else .ok (sessions.insert input.session (position + input.tokens.length, sequence + 1),
      ⟨index, input.session, sequence, input.offset, input.tokens, []⟩)

/-- The validation of a batch on a clone of the sessions. -/
def admitAll (plan : Plan) : Table (Nat × Nat) → Nat → List Input →
    Except String (Table (Nat × Nat) × List Job)
  | sessions, _, [] => .ok (sessions, [])
  | sessions, index, input :: rest =>
    match admitInput plan sessions index input with
    | .error message => .error message
    | .ok (after, job) =>
      match admitAll plan after (index + 1) rest with
      | .error message => .error message
      | .ok (last, jobs) => .ok (last, job :: jobs)

/-- `forward_batch` up to its threads: the sessions behind it, and the jobs. -/
def forwardBatch (plan : Plan) (controller : Controller)
    (inputs : List Input) : Except String (Table (Nat × Nat) × List Job) :=
  match controller.ready with
  | .error message => .error message
  | .ok () =>
    if ¬ (inputs ≠ [] ∧ inputs.length ≤ plan.limits.batch) then
      .error "invalid batch size"
    else admitAll plan controller.sessions 0 inputs

end Controller

section System
variable {S : Type}

/-- What a stage's thread does with a job that its worker answers. -/
def process (plan : Plan) (weights : Nat → Weights S) (rank : Nat)
    (worker : Worker S) (job : Job) : Except String (Worker S × Job) :=
  match execute plan rank (weights rank) worker (Packet.withValues
      (.forward job.id job.sequence job.offset job.tokens) job.values) with
  | .error message => .error message
  | .ok (after, values) =>
    if values.length ≠ outputLength plan rank job.tokens then
      .error "worker output shape mismatch"
    else .ok (after, { job with values := values })

/-- The collector's vector. -/
def outputsOf (count : Nat) (collected : List Job) : List (List Float32Bits) :=
  collected.foldl (fun outputs job => outputs.set job.index job.values) (List.replicate count [])

/-- The first stage's error, in the order in which the threads are joined. -/
def firstError (stages : Nat) (conveyor : Conveyor (Worker S) Job String) : Option String :=
  (List.range stages).findSome? fun stage =>
    match conveyor.thread stage with
    | .failed error => some error
    | _ => none

/-- The result of a batch whose threads have ended. -/
def batchResult (plan : Plan) (count : Nat) (conveyor : Conveyor (Worker S) Job String) :
    Except String (List (List Float32Bits)) :=
  match firstError plan.stages.length conveyor with
  | some error => .error error
  | none =>
    if conveyor.collected.length ≠ count then
      .error "pipeline batch interrupted"
    else .ok (outputsOf count conveyor.collected)

/-- The calls that `control` carries to every stage. -/
inductive Order
  | «open» (id : Nat)
  | close (id : Nat)
deriving Repr, DecidableEq

def Order.command : Order → Command
  | .open id => .open id
  | .close id => .close id

/-- A call that has returned a result. -/
inductive Event
  | opened (id : Nat)
  | closed (id : Nat)
  | forwarded (inputs : List Input) (outputs : List (List Float32Bits))
deriving Repr, DecidableEq

def Order.event : Order → Event
  | .open id => .opened id
  | .close id => .closed id

/-- What the controller is at. -/
inductive Activity (S : Type)
  | idle
  | control (order : Order) (rank : Nat)
  | batch (inputs : List Input) (next : Table (Nat × Nat)) (jobs : List Job)
      (conveyor : Conveyor (Worker S) Job String)

/-- A controller and its workers, with a record of the calls that have
returned results. -/
structure System (S : Type) where
  controller : Controller
  workers : Nat → Worker S
  activity : Activity S
  log : List Event

/-- What the controller keeps of an order that all stages have executed. -/
def Controller.carried (controller : Controller) : Order → Controller
  | .open id => { controller with sessions := controller.sessions.insert id (0, 0) }
  | .close id => { controller with sessions := controller.sessions.erase id }

namespace System

/-- Behind the handshakes. -/
def start : System S where
  controller := .connected
  workers := fun _ => ∅
  activity := .idle
  log := []

variable (plan : Plan) (weights : Nat → Weights S)

/-- What can happen while the wires work. What is left of a worker that
refuses a command is not known. -/
inductive Step : System S → System S → Prop
  | open {system : System S} {controller id}
      (idle : system.activity = .idle)
      (admitted : system.controller.open plan = .ok (controller, id)) :
      Step system { system with
        controller := controller, activity := .control (.open id) 0 }
  | close {system : System S} {id} (idle : system.activity = .idle)
      (admitted : system.controller.close id = .ok ()) :
      Step system { system with activity := .control (.close id) 0 }
  | rpc {system : System S} {order rank worker values}
      (active : system.activity = .control order rank)
      (inside : rank < plan.stages.length)
      (executed : execute plan rank (weights rank) (system.workers rank)
        (Packet.control order.command) = .ok (worker, values)) :
      Step system { system with
        workers := Function.update system.workers rank worker
        activity := .control order (rank + 1) }
  | refuse {system : System S} {order rank message}
      (active : system.activity = .control order rank)
      (inside : rank < plan.stages.length)
      (refused : execute plan rank (weights rank) (system.workers rank)
        (Packet.control order.command) = .error message)
      (worker : Worker S) :
      Step system { system with
        controller := system.controller.abort
        workers := Function.update system.workers rank worker
        activity := .idle }
  | carried {system : System S} {order}
      (active : system.activity = .control order plan.stages.length) :
      Step system { system with
        controller := system.controller.carried order
        activity := .idle
        log := system.log ++ [order.event] }
  | forward {system : System S} {inputs next jobs}
      (idle : system.activity = .idle)
      (admitted : system.controller.forwardBatch plan inputs = .ok (next, jobs)) :
      Step system { system with
        activity := .batch inputs next jobs (.start jobs system.workers) }
  | move {system : System S} {inputs next jobs conveyor after}
      (active : system.activity = .batch inputs next jobs conveyor)
      (move : Conveyor.Move plan.stages.length plan.limits.queueDepth
        (process plan weights) conveyor after) :
      Step system { system with activity := .batch inputs next jobs after }
  | refuseJob {system : System S} {inputs next jobs conveyor after}
      (active : system.activity = .batch inputs next jobs conveyor)
      (refusal : Conveyor.Refusal plan.stages.length (process plan weights) conveyor after) :
      Step system { system with activity := .batch inputs next jobs after }
  | succeed {system : System S} {inputs next jobs conveyor outputs}
      (active : system.activity = .batch inputs next jobs conveyor)
      (finished : conveyor.Finished plan.stages.length)
      (result : batchResult plan inputs.length conveyor = .ok outputs) :
      Step system { system with
        controller := { system.controller with sessions := next }
        workers := conveyor.worker
        activity := .idle
        log := system.log ++ [.forwarded inputs outputs] }
  | break {system : System S} {inputs next jobs conveyor message}
      (active : system.activity = .batch inputs next jobs conveyor)
      (finished : conveyor.Finished plan.stages.length)
      (result : batchResult plan inputs.length conveyor = .error message) :
      Step system { system with
        controller := system.controller.abort
        workers := conveyor.worker
        activity := .idle }

/-- A wire fails; what is left of its worker then is not known. -/
inductive Loss : System S → System S → Prop
  | lose {system : System S} {order rank}
      (active : system.activity = .control order rank)
      (inside : rank < plan.stages.length) (worker : Worker S) :
      Loss system { system with
        controller := system.controller.abort
        workers := Function.update system.workers rank worker
        activity := .idle }
  | loseJob {system : System S} {inputs next jobs conveyor after}
      (active : system.activity = .batch inputs next jobs conveyor)
      (loss : Conveyor.Loss plan.stages.length conveyor after) :
      Loss system { system with activity := .batch inputs next jobs after }

/-- What can happen at all. -/
inductive AnyStep (system after : System S) : Prop
  | step (step : Step plan weights system after)
  | loss (loss : Loss plan system after)

end System

end System

/-! ## The model in one piece

What the pipeline is for: every input goes through all stages, one input after
the other, each stage with its own state of the input's session. -/

section Whole
variable {S : Type}

/-- A session of the whole model. -/
structure Tape (S : Type) where
  position : Nat
  sequence : Nat
  states : Nat → S

/-- The sessions of the whole model. -/
abbrev Whole (S : Type) := Nat → Option (Tape S)

/-- What the stages compute: rank, state, tokens, activations and offset. -/
abbrev Compute (S : Type) :=
  Nat → S → List Token → List Float32Bits → Nat → S × List Float32Bits

variable (compute : Compute S)

/-- The activations that come to a stage: the composition of all stages before
it. -/
def through (states : Nat → S) (tokens : List Token) (offset : Nat) : Nat → List Float32Bits
  | 0 => []
  | rank + 1 => (compute rank (states rank) tokens (through states tokens offset rank) offset).2

/-- The states of the stages behind an input. -/
def advance (states : Nat → S) (tokens : List Token) (offset : Nat) (rank : Nat) : S :=
  (compute rank (states rank) tokens (through compute states tokens offset rank) offset).1

namespace Whole

/-- No session. -/
def empty : Whole S := fun _ => none

def «open» (newState : Nat → S) (whole : Whole S) (id : Nat) : Whole S :=
  Function.update whole id (some ⟨0, 0, newState⟩)

def close (whole : Whole S) (id : Nat) : Whole S :=
  Function.update whole id none

/-- The sessions behind an input. -/
def feed (whole : Whole S) (input : Input) : Whole S :=
  match whole input.session with
  | none => whole
  | some tape => Function.update whole input.session (some
      ⟨tape.position + input.tokens.length, tape.sequence + 1,
        advance compute tape.states input.tokens input.offset⟩)

/-- The output for an input: the composition of all stages. -/
def output (stages : Nat) (whole : Whole S) (input : Input) : List Float32Bits :=
  match whole input.session with
  | none => []
  | some tape => through compute tape.states input.tokens input.offset stages

/-- The outputs of a batch, one input after the other. -/
def outputs (stages : Nat) : Whole S → List Input → List (List Float32Bits)
  | _, [] => []
  | whole, input :: rest =>
    whole.output compute stages input :: outputs stages (whole.feed compute input) rest

/-- Every input of a batch continues its session. -/
def Continues : Whole S → List Input → Prop
  | _, [] => True
  | whole, input :: rest =>
    (∃ tape, whole input.session = some tape ∧ input.offset = tape.position) ∧
    Continues (whole.feed compute input) rest

/-- The sessions behind a batch. -/
def feedAll (whole : Whole S) (inputs : List Input) : Whole S :=
  inputs.foldl (fun whole input => whole.feed compute input) whole

end Whole

/-- The calls of a record are what the whole model does, and these are its
sessions behind them. -/
inductive Explains (stages : Nat) (newState : Nat → S) : Whole S → List Event → Prop
  | nil : Explains stages newState Whole.empty []
  | opened {whole log} (before : Explains stages newState whole log) {id}
      (fresh : whole id = none) :
      Explains stages newState (whole.open newState id) (log ++ [.opened id])
  | closed {whole log} (before : Explains stages newState whole log) {id}
      (known : (whole id).isSome) :
      Explains stages newState (whole.close id) (log ++ [.closed id])
  | forwarded {whole log} (before : Explains stages newState whole log)
      {inputs} (continues : whole.Continues compute inputs) :
      Explains stages newState (whole.feedAll compute inputs)
        (log ++ [.forwarded inputs (whole.outputs compute stages inputs)])

end Whole

open Joshua.Foundation Joshua.Partition

/-! ## Names of block tensors -/

/-- `parse::<usize>`. -/
def parseUsize (text : Text) : Option Nat :=
  let digits := if text.head? = some '+' then text.tail else text
  if digits ≠ [] ∧ digits.all Char.isDigit ∧ Nat.ofDigitChars 10 digits 0 < u64Limit then
    some (Nat.ofDigitChars 10 digits 0)
  else none

def blk : Text := "blk.".toList

/-- The number between `blk.` and the next dot. -/
def blockLayer (name : Text) : Option Nat :=
  if blk.isPrefixOf name then parseUsize ((name.drop blk.length).takeWhile (· ≠ '.')) else none

/-! ## Splitting -/

/-- The bytes of every layer, each at least one. -/
def layerWeights (header : Gguf.Header) (layers : Nat) : List Nat :=
  header.tensors.foldl
    (fun weights tensor =>
      match (blockLayer tensor.1).filter (· < layers) with
      | some layer => weights.modify layer fun weight =>
          min (weight + tensor.2.size.getD 0) (u64Limit - 1)
      | none => weights)
    (List.replicate layers 1)

section Split
variable {F : Type} [Float64 F]

/-- `weights[end] as f64`. -/
def weightAt (weights : List Nat) (place : Nat) : Except Halt F :=
  match weights[place]? with
  | some weight => .ok (Float64.ofNat weight)
  | none => .error (.panic .range)

/-- The `while` loop, which has at most `left` layers to take. -/
def takeLayers (weights : List Nat) (target : F) : Nat → Nat → F → Except Halt (Nat × F)
  | 0, stop, filled => .ok (stop, filled)
  | left + 1, stop, filled => do
      let weight ← weightAt weights stop
      if Float64.le (Float64.add filled weight) target then
        takeLayers weights target left (stop + 1) (Float64.add filled weight)
      else .ok (stop, filled)

/-- `end`, `filled`, `share` and `ends`. -/
structure Splitting (F : Type) where
  stop : Nat
  filled : F
  share : F
  ends : List Nat

/-- One worker but the last. -/
def splitOne (weights : List Nat) (layers count : Nat) (totalWeight totalShare : F)
    (index : Nat) (split : Splitting F) (worker : F) : Except Halt (Splitting F) := do
  let share := Float64.add split.share worker
  let target := Float64.div (Float64.mul totalWeight share) totalShare
  let later ← plainSub (count - 1) index
  let last ← plainSub layers later
  let weight ← weightAt weights split.stop
  let (stop, filled) ← takeLayers weights target (last - (split.stop + 1)) (split.stop + 1)
    (Float64.add split.filled weight)
  return ⟨stop, filled, share, split.ends ++ [stop]⟩

def splitFrom (weights : List Nat) (layers count : Nat) (totalWeight totalShare : F) :
    Nat → List F → Splitting F → Except Halt (Splitting F)
  | _, [], split => .ok split
  | index, worker :: rest, split => do
      let next ← splitOne weights layers count totalWeight totalShare index split worker
      splitFrom weights layers count totalWeight totalShare (index + 1) rest next

variable (F) in
/-- `split_layers`. -/
def splitLayers (header : Gguf.Header) (layers : Nat) (capacities : List UInt64) :
    Except Halt (List Nat) := do
  let count := capacities.length
  ensure (1 ≤ count && count ≤ layers)
    (toString count ++ " workers cannot split " ++ toString layers ++ " layers")
  let weights := layerWeights header layers
  let shares : List F :=
    if capacities.contains 0 then List.replicate count one
    else capacities.map fun capacity => Float64.ofNat capacity.toNat
  let split ← splitFrom weights layers count (total (weights.map Float64.ofNat)) (total shares)
    0 (shares.take (count - 1)) ⟨0, zero, zero, []⟩
  return split.ends ++ [layers]

end Split

/-! ## Plans -/

/-- The stages that `Plan::from_gguf` makes of ends and memory budgets. -/
def stagesOf : Nat → List Nat → List Nat → List Stage
  | start, stop :: ends, budget :: budgets => ⟨start, stop, budget⟩ :: stagesOf stop ends budgets
  | _, _, _ => []

/-- `Limits::validate`. -/
def Limits.validate (limits : Limits) : Except Halt Unit := do
  ensure (1 ≤ limits.context && limits.context ≤ 262144) "invalid context limit"
  ensure (1 ≤ limits.chunk && limits.chunk ≤ 1024 && limits.chunk ≤ limits.context)
    "invalid chunk limit"
  ensure (1 ≤ limits.sessions && limits.sessions ≤ 128) "invalid session limit"
  ensure (1 ≤ limits.queueDepth && limits.queueDepth ≤ 128) "invalid queue depth"
  ensure (1 ≤ limits.batch && limits.batch ≤ 128) "invalid batch limit"
  ensure (1 ≤ limits.timeoutMs && limits.timeoutMs ≤ 300000) "invalid timeout"
  ensure (0 < limits.coordinatorMemoryBudget) "empty coordinator memory budget"

def checkedProduct (values : List Nat) : Except Halt Nat :=
  values.foldlM (fun left right => checkedMul left right "pipeline memory size overflow") 1

def checkedSum (values : List Nat) : Except Halt Nat :=
  values.foldlM (fun left right => checkedAdd left right "pipeline memory size overflow") 0

/-- `Plan::values_limit`. -/
def Plan.valuesLimit (plan : Plan) : Except Halt Nat := do
  let size ← checkedMul plan.limits.chunk plan.hidden "activation size overflow"
  return max size plan.vocab

/-- The loop over the stages: where they end. -/
def validateStages (layers : Nat) : Nat → List Stage → Except Halt Nat
  | start, [] => .ok start
  | start, stage :: rest => do
      ensure (stage.start = start && start < stage.stop && stage.stop ≤ layers)
        "stages must cover contiguous nonempty layer ranges"
      ensure (0 < stage.memoryBudget) "empty memory budget"
      validateStages layers stage.stop rest

/-- `Plan::validate`. -/
def Plan.validate (plan : Plan) : Except Halt Unit := do
  plan.limits.validate
  ensure (plan.version = 1 && plan.modelSha256.utf8ByteSize = 64 &&
      plan.modelSha256.toList.all fun c =>
        c.isDigit || ('a' ≤ c && c ≤ 'f') || ('A' ≤ c && c ≤ 'F'))
    "invalid model identity/version"
  ensure (0 < plan.layers && 0 < plan.hidden && 0 < plan.vocab) "invalid model dimensions"
  ensure (1 ≤ plan.stages.length && plan.stages.length ≤ 64) "invalid stage count"
  let limit ← plan.valuesLimit
  ensure (limit ≤ 16 * 1024 * 1024) "activation frame exceeds limit"
  let reached ← validateStages plan.layers 0 plan.stages
  ensure (reached = plan.layers) "incomplete layer coverage"
  let depth ← plainAdd plan.limits.queueDepth 6
  let queued ← checkedProduct [plan.stages.length, depth]
  let slots ← checkedSum [queued, plan.limits.batch]
  let frames ← checkedProduct [slots, limit, 4]
  let controls ← checkedProduct [slots, maxHeader]
  let outputs ← checkedProduct [plan.limits.batch, plan.vocab, 4]
  let buffers ← checkedSum [frames, controls, outputs]
  ensure (buffers ≤ plan.limits.coordinatorMemoryBudget)
    "coordinator buffers exceed memory budget; reduce chunk/batch/queue depth"

/-- `Plan::owns`; there is no answer for a rank without a stage. -/
def Plan.owns (plan : Plan) (header : Gguf.Header) (rank : Nat) (name : Text) : Option Bool :=
  plan.stages[rank]?.map fun stage =>
    if blk.isPrefixOf name then
      (blockLayer name).any fun layer => stage.start ≤ layer && layer < stage.stop
    else
      (stage.start = 0 && name = "token_embd.weight".toList) ||
        (stage.stop = plan.layers &&
          ("output.".toList.isPrefixOf name || "output_norm.".toList.isPrefixOf name ||
            (name = "token_embd.weight".toList &&
              !(header.tensors.map Prod.fst).contains "output.weight".toList)))

/-- `Plan::stage_tensors`. -/
def Plan.stageTensors (plan : Plan) (header : Gguf.Header) (rank : Nat) : List Text :=
  let owned := header.tensors.filter fun tensor => plan.owns header rank tensor.1 = some true
  let placed := owned.mergeSort fun left right =>
    left.2.offset < right.2.offset || (left.2.offset = right.2.offset && left.1 ≤ right.1)
  placed.map Prod.fst

end Joshua.Pipeline
