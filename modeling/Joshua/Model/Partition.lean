/-
Module: Joshua.Model.Partition
Purpose: The planner that cuts every tensor into one shard for each node of a
  cluster (`distributed/partition.rs`), and the monitor that asks for a new
  plan.
Trusted boundary: floating point numbers are any type with the operations of
  `Float64`, about which nothing is assumed
-/
import Joshua.Foundation.Machine

namespace Joshua
open Joshua.Foundation

/-- The operations on `f64` that the planner uses. -/
class Float64 (F : Type) where
  /-- The number nearest to a ratio, for literals. -/
  ratio : Nat → Nat → F
  infinity : F
  negInfinity : F
  minPositive : F
  add : F → F → F
  sub : F → F → F
  mul : F → F → F
  div : F → F → F
  max : F → F → F
  min : F → F → F
  ln : F → F
  exp : F → F
  fract : F → F
  /-- `as f64` -/
  ofNat : Nat → F
  /-- `floor() as u64` -/
  floorU64 : F → Nat
  isFinite : F → Bool
  lt : F → F → Bool
  le : F → F → Bool
  totalCmp : F → F → Ordering

namespace Partition

variable {F : Type} [Float64 F]

/-- The `f64` literal 0.0. -/
def zero : F := Float64.ratio 0 1

/-- The `f64` literal 1.0. -/
def one : F := Float64.ratio 1 1

/-- `sum::<f64>()`. -/
def total (values : List F) : F :=
  values.foldl Float64.add zero

structure NodeCapacity (F : Type) where
  id : String
  availableBytes : UInt64
  reservedBytes : UInt64
  computeWeight : F
deriving Repr, DecidableEq

structure TensorWorkload where
  id : String
  inputBlocks : UInt64
  columnsPerBlock : UInt64
  bytesPerInputBlock : UInt64
deriving Repr, DecidableEq

structure LinkObservation (F : Type) where
  fromId : String
  toId : String
  latencySeconds : F
  bandwidthBytesPerSecond : F
deriving Repr, DecidableEq

/-- A half-open range. -/
structure Span where
  start : Nat
  stop : Nat
deriving Repr, DecidableEq

structure RankShard where
  rank : Nat
  nodeId : String
  inputBlocks : Span
  inputColumns : Span
  bytes : Nat
deriving Repr, DecidableEq

structure TensorPartition where
  tensorId : String
  shards : List RankShard
deriving Repr, DecidableEq

structure NodeMemory where
  rank : Nat
  nodeId : String
  reservedBytes : Nat
  tensorBytes : Nat
  totalBytes : Nat
deriving Repr, DecidableEq

structure PartitionPlan where
  tensors : List TensorPartition
  nodes : List NodeMemory
deriving Repr, DecidableEq

/-- `TensorWorkload::validate`. -/
def TensorWorkload.validate (tensor : TensorWorkload) : Except Halt Unit := do
  ensure (tensor.id ≠ "") "tensor ID must not be empty"
  ensure (0 < tensor.inputBlocks.toNat && 0 < tensor.columnsPerBlock.toNat &&
      0 < tensor.bytesPerInputBlock.toNat)
    "tensor dimensions and storage must be positive"
  let _ ← checkedMul tensor.inputBlocks.toNat tensor.columnsPerBlock.toNat
    "tensor column count overflow"
  let _ ← checkedMul tensor.inputBlocks.toNat tensor.bytesPerInputBlock.toNat
    "tensor byte count overflow"
  return ()

/-- `validate_link_values`. -/
def validateLinkValues (link : LinkObservation F) : Except Halt Unit := do
  ensure (Float64.isFinite link.latencySeconds && Float64.le zero link.latencySeconds)
    "link latency must be finite and nonnegative"
  ensure (Float64.isFinite link.bandwidthBytesPerSecond &&
      Float64.lt zero link.bandwidthBytesPerSecond)
    "link bandwidth must be finite and positive"

/-! ## Scores -/

section Scores
variable {ranks : Nat} (nodes : Fin ranks → NodeCapacity F)

/-- `ids.get`: the rank of a node. -/
def rankOf (id : String) : Option (Fin ranks) :=
  (List.finRange ranks).find? fun rank => (nodes rank).id = id

/-- The worst measurements known of every rank, and the pairs seen. -/
structure LinkPenalties (F : Type) (ranks : Nat) where
  latency : Fin ranks → F
  bandwidth : Fin ranks → F
  seen : List (Fin ranks × Fin ranks)

/-- One link of `speed_scores`. -/
def addLink (known : LinkPenalties F ranks) (link : LinkObservation F) :
    Except Halt (LinkPenalties F ranks) := do
  let some source := rankOf nodes link.fromId
    | .error (.refused "unknown link endpoint")
  let some target := rankOf nodes link.toId
    | .error (.refused "unknown link endpoint")
  ensure (source ≠ target) "self links are not supported"
  let pair := (min source target, max source target)
  ensure (!known.seen.contains pair) "duplicate link observation"
  validateLinkValues link
  return [source, target].foldl
    (fun known rank =>
      { known with
        latency := Function.update known.latency rank
          (Float64.max (known.latency rank) link.latencySeconds)
        bandwidth := Function.update known.bandwidth rank
          (Float64.min (known.bandwidth rank) link.bandwidthBytesPerSecond) })
    { known with seen := pair :: known.seen }

/-- The logarithm of a node's score. -/
def logScore (budget : Fin ranks → Nat) (known : LinkPenalties F ranks) (rank : Fin ranks) : F :=
  let terms : List F :=
    [zero, Float64.sub (Float64.ln (known.latency rank)) (Float64.ln (Float64.ratio 1 1000)),
      Float64.sub (Float64.ln (Float64.ratio 1073741824 1)) (Float64.ln (known.bandwidth rank))]
  let largest := terms.foldl Float64.max Float64.negInfinity
  let penalty := Float64.add largest
    (Float64.ln (total (terms.map fun x => Float64.exp (Float64.sub x largest))))
  Float64.sub
    (Float64.add (Float64.ln (nodes rank).computeWeight)
      (Float64.ln (Float64.ofNat (max (budget rank) 1))))
    penalty

/-- `speed_scores`. -/
def speedScores (budget : Fin ranks → Nat) (links : List (LinkObservation F)) :
    Except Halt (Fin ranks → F) := do
  let known ← links.foldlM (addLink nodes) ⟨fun _ => zero, fun _ => Float64.infinity, []⟩
  let logs := logScore nodes budget known
  let largest := (List.finRange ranks).foldl
    (fun largest rank => Float64.max largest (logs rank))
    Float64.negInfinity
  return fun rank => Float64.max (Float64.exp (Float64.sub (logs rank) largest)) Float64.minPositive

end Scores

/-! ## Water filling -/

section WaterFill
variable {ranks : Nat}

/-- The blocks assigned to every rank and those left. -/
structure Level (ranks : Nat) where
  assigned : Fin ranks → Nat
  remaining : Nat

/-- Assign `count` more blocks to a rank. -/
def Level.give (level : Level ranks) (rank : Fin ranks) (count : Nat) :
    Except Halt (Level ranks) := do
  let more ← plainAdd (level.assigned rank) count
  let remaining ← plainSub level.remaining count
  return ⟨Function.update level.assigned rank more, remaining⟩

variable (caps : Fin ranks → Nat) (scores : Fin ranks → F)

section
variable (level : Level ranks)

/-- The ranks that can take more blocks. -/
def active : List (Fin ranks) :=
  (List.finRange ranks).filter fun rank => level.assigned rank < caps rank

/-- The shares of the active ranks in what is left. -/
def shares : List (Fin ranks × F) :=
  let active := active caps level
  let largest := active.foldl (fun largest rank => Float64.max largest (scores rank)) zero
  let sum := total (active.map fun rank => Float64.div (scores rank) largest)
  active.map fun rank =>
    (rank, Float64.mul (Float64.ofNat level.remaining)
      (Float64.div (Float64.div (scores rank) largest) sum))

/-- Ranks whose share is all they can take get all they can take. -/
def saturate (rank : Fin ranks) : Except Halt (Level ranks) := do
  let room ← plainSub (caps rank) (level.assigned rank)
  level.give rank (min room level.remaining)

/-- A rank gets the whole blocks of its share. -/
def giveWhole (share : Fin ranks × F) : Except Halt (Level ranks) := do
  let room ← plainSub (caps share.1) (level.assigned share.1)
  level.give share.1 (min (min (Float64.floorU64 share.2) room) level.remaining)

/-- A rank gets one block more. -/
def giveOne (share : Fin ranks × F) : Except Halt (Level ranks) :=
  if 0 < level.remaining && level.assigned share.1 < caps share.1 then
    level.give share.1 1
  else .ok level

end

/-- The order in which single blocks are handed out: by the fraction that was
cut off, the largest first, then by rank. -/
def fractionOrder (left right : Fin ranks × F) : Bool :=
  ((Float64.totalCmp (Float64.fract right.2) (Float64.fract left.2)).then
    (compare left.1 right.1)).isLE

/-- One round of the loop of `water_fill`. -/
def fillRound (level : Level ranks) : Except Halt (Level ranks) := do
  ensure (active caps level ≠ []) "no capacity for remaining blocks"
  let shares := shares caps scores level
  let saturated ← filterGuarded (fun share => do
      let room ← plainSub (caps share.1) (level.assigned share.1)
      return Float64.le (Float64.ofNat room) share.2) shares
  if saturated ≠ [] then
    (saturated.map Prod.fst).foldlM (saturate caps) level
  else
    let whole ← shares.foldlM (giveWhole caps) level
    let after ← (shares.mergeSort fractionOrder).foldlM (giveOne caps) whole
    ensure (after.remaining ≠ level.remaining) "unable to assign remaining blocks"
    return after

/-- `while remaining > 0`.  Every round lowers what is left, so that bounds
the number of rounds. -/
def fillLoop : Nat → Level ranks → Except Halt (Level ranks)
  | 0, _ => .error (.panic .spin)
  | fuel + 1, level =>
    if level.remaining = 0 then .ok level
    else do
      let next ← fillRound caps scores level
      fillLoop fuel next

/-- `water_fill`. -/
def waterFill (remaining : Nat) : Except Halt (Fin ranks → Nat) := do
  let capacity ← (List.finRange ranks).foldlM
    (fun sum rank => checkedAdd sum (caps rank) "block capacity overflow") 0
  ensure (remaining ≤ capacity) "insufficient whole-block memory after reserving all tensor minima"
  let level ← fillLoop caps scores (remaining + 1) ⟨fun _ => 0, remaining⟩
  return level.assigned

end WaterFill

/-! ## The plan -/

section Plan
variable {ranks : Nat} (nodes : Fin ranks → NodeCapacity F)

/-- The checks of one node, and its budget. -/
def nodeBudget (rank : Fin ranks) : Except Halt Nat := do
  ensure ((nodes rank).id ≠ "") "node ID must not be empty"
  ensure (rankOf nodes (nodes rank).id = some rank) "duplicate node ID"
  ensure (Float64.isFinite (nodes rank).computeWeight && Float64.lt zero (nodes rank).computeWeight)
    "compute weights must be finite and positive"
  checkedSub (nodes rank).availableBytes.toNat
    (nodes rank).reservedBytes.toNat "node reserve exceeds available memory"

/-- What the tensors seen so far need: one block of each on every node, and
all blocks together. -/
structure Demand where
  ids : List String
  minimum : Nat
  required : Nat

def addDemand (ranks : Nat) (demand : Demand) (tensor : TensorWorkload) : Except Halt Demand := do
  tensor.validate
  ensure (!demand.ids.contains tensor.id) "duplicate tensor ID"
  ensure (ranks ≤ tensor.inputBlocks.toNat)
    ("tensor " ++ tensor.id ++ " has fewer blocks than participating ranks")
  let minimum ← checkedAdd demand.minimum tensor.bytesPerInputBlock.toNat
    "minimum shard storage overflow"
  let storage ← checkedMul tensor.inputBlocks.toNat
    tensor.bytesPerInputBlock.toNat "tensor storage overflow"
  let required ← checkedAdd demand.required storage "global model storage overflow"
  return ⟨tensor.id :: demand.ids, minimum, required⟩

/-- The shards of a tensor so far: where the next one starts, and what is left
of the budgets. -/
structure Cutting (ranks : Nat) where
  start : Nat
  budget : Fin ranks → Nat
  shards : List RankShard

/-- One rank's shard of a tensor. -/
def cutShard (tensor : TensorWorkload) (extras : Fin ranks → Nat)
    (cutting : Cutting ranks) (rank : Fin ranks) :
    Except Halt (Cutting ranks) := do
  let count ← plainAdd (extras rank) 1
  let stop ← checkedAdd cutting.start count "block range overflow"
  let bytes ← checkedMul count tensor.bytesPerInputBlock.toNat "shard storage overflow"
  let extra ← plainMul (extras rank) tensor.bytesPerInputBlock.toNat
  let left ← checkedSub (cutting.budget rank) extra "shard exceeds node memory"
  let firstColumn ← plainMul cutting.start tensor.columnsPerBlock.toNat
  let lastColumn ← plainMul stop tensor.columnsPerBlock.toNat
  pure
    { start := stop
      budget := Function.update cutting.budget rank left
      shards := cutting.shards ++
        [{ rank := rank
           nodeId := (nodes rank).id
           inputBlocks := ⟨cutting.start, stop⟩
           inputColumns := ⟨firstColumn, lastColumn⟩
           bytes := bytes }] }

/-- The budgets and the tensors planned so far. -/
structure Planning (ranks : Nat) where
  budget : Fin ranks → Nat
  planned : List TensorPartition

/-- One tensor of the plan. -/
def planTensor (scores : Fin ranks → F) (planning : Planning ranks)
    (tensor : TensorWorkload) : Except Halt (Planning ranks) := do
  let caps := fun rank => planning.budget rank / tensor.bytesPerInputBlock.toNat
  let blocks ← plainSub tensor.inputBlocks.toNat ranks
  let extras ← waterFill caps scores blocks
  let cutting ← (List.finRange ranks).foldlM (cutShard nodes tensor extras) ⟨0, planning.budget, []⟩
  ensure (cutting.start = tensor.inputBlocks.toNat) "incomplete block assignment"
  pure
    { budget := cutting.budget
      planned := planning.planned ++ [⟨tensor.id, cutting.shards⟩] }

/-- What a node holds, given what is left of its budget. -/
def nodeMemory (budget : Fin ranks → Nat) (rank : Fin ranks) : Except Halt NodeMemory := do
  let total ← plainSub (nodes rank).availableBytes.toNat (budget rank)
  let tensorBytes ← plainSub total (nodes rank).reservedBytes.toNat
  pure
    { rank := rank
      nodeId := (nodes rank).id
      reservedBytes := (nodes rank).reservedBytes.toNat
      tensorBytes := tensorBytes
      totalBytes := total }

/-- `plan_partition` behind the sorting of its arguments. -/
def planSorted (tensors : List TensorWorkload)
    (links : List (LinkObservation F)) : Except Halt PartitionPlan := do
  let budget ← forRanks (nodeBudget nodes)
  let scores ← speedScores nodes budget links
  let demand ← tensors.foldlM (addDemand ranks) ⟨[], 0, 0⟩
  let aggregate ← (List.finRange ranks).foldlM
    (fun sum rank => checkedAdd sum (budget rank) "aggregate capacity overflow") 0
  ensure (demand.required ≤ aggregate) "insufficient aggregate model memory"
  let budget ← forRanks fun rank =>
    checkedSub (budget rank) demand.minimum
      "node cannot hold one block of every tensor plus its reserve"
  let planning ← tensors.foldlM (planTensor nodes scores) ⟨budget, []⟩
  let memory ← forRanks (nodeMemory nodes planning.budget)
  pure
    { tensors := planning.planned.mergeSort fun left right =>
        left.tensorId ≤ right.tensorId
      nodes := (List.finRange ranks).map memory }

end Plan

/-- `plan_partition`. -/
def planPartition (nodes : List (NodeCapacity F))
    (tensors : List TensorWorkload) (links : List (LinkObservation F)) :
    Except Halt PartitionPlan := do
  ensure (nodes ≠ []) "at least one participating rank is required"
  ensure (tensors ≠ []) "at least one tensor is required"
  let nodes := nodes.mergeSort fun left right => left.id ≤ right.id
  let tensors := tensors.mergeSort fun left right =>
    right.bytesPerInputBlock < left.bytesPerInputBlock ||
      (left.bytesPerInputBlock = right.bytesPerInputBlock &&
        left.id ≤ right.id)
  planSorted nodes.get tensors links

/-! ## Timings -/

structure RankTiming (F : Type) where
  nodeId : String
  busySeconds : F
  waitSeconds : F
deriving Repr, DecidableEq

structure RepartitionPolicy (F : Type) where
  maxImbalance : F
  sustainedWindows : Nat
  maxWeightStep : F
deriving Repr, DecidableEq

/-- `validate_timings`, with the ids seen before. -/
def validateTimingsFrom : List String → List (RankTiming F) → Except Halt Unit
  | _, [] => .ok ()
  | ids, timing :: rest => do
      ensure (!ids.contains timing.nodeId) ("duplicate rank timing for " ++ timing.nodeId)
      ensure (Float64.isFinite timing.busySeconds && Float64.lt zero timing.busySeconds)
        "busy time must be finite and positive"
      ensure (Float64.isFinite timing.waitSeconds && Float64.le zero timing.waitSeconds)
        "wait time must be finite and nonnegative"
      validateTimingsFrom (timing.nodeId :: ids) rest

section
variable (timings : List (RankTiming F))

def validateTimings : Except Halt Unit := do
  ensure (timings ≠ []) "no rank timings"
  validateTimingsFrom [] timings

/-- `scaled_mean_busy`. -/
def scaledMeanBusy : F × F :=
  let max := (timings.map RankTiming.busySeconds).foldl Float64.max zero
  let scaled := total (timings.map fun timing => Float64.div timing.busySeconds max)
  (Float64.div scaled (Float64.ofNat timings.length), max)

/-- `load_imbalance`. -/
def loadImbalance : Except Halt F := do
  validateTimings timings
  return Float64.sub (Float64.div one (scaledMeanBusy timings).1) one

end

/-- `f64::clamp`. -/
def clamp (value low high : F) : F :=
  if Float64.lt value low then low
  else if Float64.lt high value then high
  else value

/-- The corrected weight of one node. -/
def rebalanceNode (timings : List (RankTiming F)) (maxStep : F)
    (node : NodeCapacity F) : Except Halt (NodeCapacity F) := do
  let (scaledMean, max) := scaledMeanBusy timings
  let some timing := timings.find? fun timing => timing.nodeId = node.id
    | .error (.refused ("no timing for node " ++ node.id))
  let factor := clamp
    (Float64.mul scaledMean (Float64.div max timing.busySeconds))
    (Float64.div one maxStep) maxStep
  let computeWeight := Float64.mul node.computeWeight factor
  ensure (Float64.isFinite computeWeight && Float64.lt zero computeWeight)
    "rebalanced compute weight is not finite and positive"
  return { node with computeWeight := computeWeight }

/-- `rebalance_weights`. -/
def rebalanceWeights (nodes : List (NodeCapacity F)) (timings : List (RankTiming F)) (maxStep : F) :
    Except Halt (List (NodeCapacity F)) := do
  validateTimings timings
  ensure (Float64.isFinite maxStep && Float64.le one maxStep)
    "weight step must be finite and at least one"
  ensure (timings.length = nodes.length) "need exactly one timing per planned node"
  nodes.mapM (rebalanceNode timings maxStep)

/-! ## The monitor -/

structure Repartition (F : Type) where
  nodes : List (NodeCapacity F)
  plan : PartitionPlan
  observedImbalance : F
deriving Repr, DecidableEq

/-- `RepartitionMonitor`; the accumulated busy and wait times by node id. -/
structure RepartitionMonitor (F : Type) where
  policy : RepartitionPolicy F
  streak : Nat
  accumulated : List (String × F × F)
deriving Repr, DecidableEq

namespace RepartitionMonitor

/-- `RepartitionMonitor::new`. -/
def new (policy : RepartitionPolicy F) : Except Halt (RepartitionMonitor F) := do
  ensure (Float64.isFinite policy.maxImbalance && Float64.le zero policy.maxImbalance)
    "imbalance threshold must be finite and nonnegative"
  ensure (0 < policy.sustainedWindows) "sustained window count must be positive"
  ensure (Float64.isFinite policy.maxWeightStep && Float64.le one policy.maxWeightStep)
    "weight step must be finite and at least one"
  return ⟨policy, 0, []⟩

/-- Add one timing to the times of its node, which are kept by id. -/
def accumulate (timing : RankTiming F) : List (String × F × F) → List (String × F × F)
  | [] => [(timing.nodeId, Float64.add zero timing.busySeconds,
      Float64.add zero timing.waitSeconds)]
  | (id, busy, wait) :: rest =>
    if timing.nodeId = id then
      (id, Float64.add busy timing.busySeconds, Float64.add wait timing.waitSeconds) :: rest
    else if timing.nodeId < id then
      (timing.nodeId, Float64.add zero timing.busySeconds,
        Float64.add zero timing.waitSeconds) :: (id, busy, wait) :: rest
    else (id, busy, wait) :: accumulate timing rest

/-- Whether the timings are of other participants than the ones accumulated;
also at the first window. -/
def participantsChanged (accumulated : List (String × F × F))
    (timings : List (RankTiming F)) : Bool :=
  accumulated.length ≠ timings.length ||
    timings.any fun timing => !(accumulated.map Prod.fst).contains timing.nodeId

/-- The arguments of one `observe`. -/
structure Window (F : Type) where
  timings : List (RankTiming F)
  nodes : List (NodeCapacity F)
  tensors : List TensorWorkload
  links : List (LinkObservation F)
deriving DecidableEq

/-- Why an observation fails: the timings are not valid, the accumulated
times overflowed and the evidence was reset, or there is no new plan. -/
inductive ObserveError
  | rejected (halt : Halt)
  | overflowed
  | replan (halt : Halt)
deriving Repr, DecidableEq

/-- The plan that is proposed for accumulated times. -/
def replan (policy : RepartitionPolicy F) (accumulated : List (String × F × F))
    (window : Window F) : Except Halt (Repartition F) := do
  let summed := accumulated.map fun entry => (⟨entry.1, entry.2.1, entry.2.2⟩ : RankTiming F)
  let observedImbalance ← loadImbalance summed
  let nodes ← rebalanceWeights window.nodes summed policy.maxWeightStep
  let plan ← planPartition nodes window.tensors window.links
  return ⟨nodes, plan, observedImbalance⟩

/-- The monitor without evidence. -/
def reset (monitor : RepartitionMonitor F) : RepartitionMonitor F :=
  { monitor with streak := 0, accumulated := [] }

section
variable (monitor : RepartitionMonitor F) (window : Window F)

/-- The streak an imbalanced window adds to. -/
def streakBefore : Nat :=
  if participantsChanged monitor.accumulated window.timings then 0
  else monitor.streak

/-- The times with those of an imbalanced window. -/
def timesWith : List (String × F × F) :=
  window.timings.foldl (fun times timing => accumulate timing times)
    (if participantsChanged monitor.accumulated window.timings then []
      else monitor.accumulated)

/-- `observe`: the result and the monitor afterwards.  The new evidence is
kept only where the window is fully handled. -/
def observe : Except ObserveError (Option (Repartition F)) × RepartitionMonitor F :=
  match loadImbalance window.timings with
  | .error halt => (.error (.rejected halt), monitor)
  | .ok imbalance =>
    if Float64.le imbalance monitor.policy.maxImbalance then
      (.ok none, monitor.reset)
    else if (timesWith monitor window).any fun entry =>
        !Float64.isFinite entry.2.1 || !Float64.isFinite entry.2.2 then
      (.error .overflowed, monitor.reset)
    else if streakBefore monitor window + 1 < monitor.policy.sustainedWindows then
      (.ok none, { monitor with
          streak := streakBefore monitor window + 1
          accumulated := timesWith monitor window })
    else
      match replan monitor.policy (timesWith monitor window) window with
      | .error halt => (.error (.replan halt), monitor)
      | .ok repartition => (.ok (some repartition), monitor.reset)

end

end RepartitionMonitor

end Partition

end Joshua
