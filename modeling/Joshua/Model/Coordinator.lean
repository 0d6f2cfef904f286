/-
Module: Joshua.Model.Coordinator
Purpose: Slot selection of the request router (`coordinator.rs`,
  `coordinator/jobs.rs`): the registry of workers, the two ways a slot is
  picked, the guard that gives it back, and the probes that update the
  registry, as steps that interleave.
Trusted boundary: the affinity directory's answer (a preferred worker and the
  work it would save) and the floating-point ratios are arguments; what the
  coordinator counted as its own around a probe is an argument of the update;
  counters of live guards do not reach 2 ^ 64.
-/
import Joshua.Foundation.OrderedMap

namespace Joshua.Coordinator
open Joshua.Foundation

/-- `ROUTED_PATHS`. -/
inductive RoutedPath
  | chatCompletions
  | completions
  | embeddings
  | transcriptions
deriving Repr, DecidableEq

/-- `ModelSlots`: one model of a worker that serves several. -/
structure ModelSlots where
  id : String
  nCtx : Option UInt32
  maxConcurrency : UInt64
  inFlight : UInt64
  embeddings : Bool

structure WorkerCapabilities where
  chat : Bool
  completions : Bool
  embeddings : Bool
  transcriptions : Bool

def WorkerCapabilities.serves (capabilities : WorkerCapabilities) : RoutedPath → Bool
  | .chatCompletions => capabilities.chat
  | .completions => capabilities.completions
  | .embeddings => capabilities.embeddings
  | .transcriptions => capabilities.transcriptions

/-- What a worker reports, as far as slot selection reads it. -/
structure WorkerInfo where
  protocolVersion : UInt32
  model : String
  models : List ModelSlots
  nCtx : UInt32
  maxConcurrency : UInt64
  inFlight : UInt64
  transcriptionInFlight : UInt64
  capabilities : WorkerCapabilities

/-- `WORKER_PROTOCOL_VERSION`. -/
def workerProtocolVersion : UInt32 := 1

namespace WorkerInfo

section
variable (info : WorkerInfo)

def modelIds : List String :=
  info.model :: info.models.map ModelSlots.id

/-- `slots_of`: the model's own admission figures. -/
def slotsOf (model : Option String) : Option ModelSlots :=
  info.models.find? fun slots => slots.id = model.getD info.model

def contextOf (model : String) : Option UInt32 :=
  (((info.slotsOf (some model)).bind ModelSlots.nCtx).or
    (if model = info.model then some info.nCtx else none)).filter fun context => 0 < context

end

end WorkerInfo

/-- The last known state of a worker. -/
structure WorkerStatus where
  residencyGeneration : Nat := 0
  healthy : Bool := false
  info : Option WorkerInfo := none
  externalInFlight : Nat := 0
  observedAudioInFlight : Nat := 0
  audioCompletionEpoch : Nat := 0
  audioProbeEpoch : Nat := 0
  externalByModel : Counts String := ∅

structure Worker where
  status : WorkerStatus := {}
  audioDispatched : Nat := 0
  dispatchGeneration : Nat := 0
  dispatched : Nat := 0
  dispatchedByModel : Counts String := ∅
  workByModel : Counts String := ∅

structure CoordinatorConfig where
  workerSlots : Option Nat
  queueDepth : Nat

/-- `slots_for`. -/
def CoordinatorConfig.slotsFor (config : CoordinatorConfig) (info : WorkerInfo) : Nat :=
  max (config.workerSlots.getD info.maxConcurrency.toNat) 1

/-- The scheduling hints of a request. -/
structure RequestWork where
  context : Option UInt32
  units : Nat

/-! ## Picking a worker -/

/-- The floating-point operations of the ranking: the quotient of two whole
numbers, a difference, and the partial comparison. -/
class RatioOps (R : Type) where
  quotient : Nat → Nat → R
  sub : R → R → R
  partialCmp : R → R → Option Ordering

variable {n : Nat} {R : Type}

/-- What a generation pick is asked for.  `preferred` is the worker the
affinity directory names, with the work it would save. -/
structure PickArgs (n : Nat) where
  path : RoutedPath
  model : Option String
  work : RequestWork
  exclude : List (Fin n)
  preferred : Option (Fin n × Nat)

structure Best (n : Nat) (R : Type) where
  index : Fin n
  model : String
  unknownContext : Bool
  ratio : R
  load : Nat

/-- The variables of the loop over the workers. -/
structure Scan (n : Nat) (R : Type) where
  modelKnown : Bool := false
  anyEligible : Bool := false
  anyExcluded : Bool := false
  contextMismatch : Bool := false
  contextPossible : Bool := false
  best : Option (Best n R) := none

/-- `<` on the triples of the ranking. -/
def Best.before [RatioOps R] (left right : Best n R) : Bool :=
  match left.unknownContext, right.unknownContext with
  | false, true => true
  | true, false => false
  | _, _ =>
    match RatioOps.partialCmp left.ratio right.ratio with
    | some .lt => true
    | some .eq => left.load < right.load
    | _ => false

/-- Whether the worker's report rules the request out. -/
def WorkerInfo.unsuited (info : WorkerInfo) (path : RoutedPath)
    (model : Option String) (own : Option ModelSlots) : Bool :=
  (path != .transcriptions && model.isNone &&
      info.models.any fun slots => slots.id != info.model) ||
    model.any (fun wanted => !info.modelIds.contains wanted) ||
    !info.capabilities.serves path ||
    (path == .embeddings && own.any fun slots => !slots.embeddings)

/-- The slots and the load the request competes for; nothing when the
configured cap leaves no room on the worker as a whole. -/
def Worker.slotsAndLoad (worker : Worker) (config : CoordinatorConfig)
    (info : WorkerInfo) (own : Option ModelSlots) : Option (Nat × Nat) :=
  let workerLoad := wrapAdd worker.dispatched worker.status.externalInFlight
  match own with
  | some slots =>
    if config.workerSlots.any fun cap => max cap 1 ≤ workerLoad then
      none
    else
      some (max slots.maxConcurrency.toNat 1, wrapAdd (worker.dispatchedByModel.read slots.id)
          (worker.status.externalByModel.read slots.id))
  | none => some (config.slotsFor info, workerLoad)

/-- The candidate a worker with room makes. -/
def Worker.candidate [RatioOps R] (worker : Worker) (args : PickArgs n)
    (index : Fin n) (selected : String) (own : Option ModelSlots)
    (context : Option UInt32) (slots load : Nat) : Best n R :=
  let localWork := worker.workByModel.read selected
  let external :=
    if own.isSome then worker.status.externalByModel.read selected
    else worker.status.externalInFlight
  let ratio : R :=
    if args.path = .transcriptions then RatioOps.quotient load slots
    else
      RatioOps.quotient
        (satAdd (satAdd localWork (min (external * args.work.units) (u64Limit - 1)))
          args.work.units) slots
  let ratio :=
    match args.preferred with
    | some (preferred, saved) =>
      if preferred = index then
        RatioOps.sub ratio (RatioOps.quotient saved slots)
      else
        ratio
    | none => ratio
  { index := index
    model := selected
    unknownContext := args.work.context.isSome && context.isNone
    ratio := ratio
    load := load }

/-- The admission figures of the model itself, where the worker has them. -/
def PickArgs.own (args : PickArgs n) (info : WorkerInfo) : Option ModelSlots :=
  if args.path = .transcriptions then none else info.slotsOf args.model

/-- One round of the loop of `try_pick`. -/
def look [RatioOps R] (config : CoordinatorConfig) (args : PickArgs n)
    (index : Fin n) (worker : Worker) (scan : Scan n R) : Scan n R :=
  match worker.status.info with
  | none => { scan with contextPossible := true }
  | some info =>
    let own := args.own info
    if info.unsuited args.path args.model own then
      scan
    else
      let selected := args.model.getD info.model
      let context := info.contextOf selected
      let known := { scan with modelKnown := true }
      if args.work.context.any fun needed => context.any fun available => available < needed then
        { known with contextMismatch := true }
      else
        let possible := { known with contextPossible := true }
        if !worker.status.healthy then
          possible
        else if args.exclude.contains index then
          { possible with anyExcluded := true }
        else
          let eligible := { possible with anyEligible := true }
          match worker.slotsAndLoad config info own with
          | none => eligible
          | some (slots, load) =>
            if slots ≤ load then
              eligible
            else
              let candidate := worker.candidate args index selected own context slots load
              if eligible.best.all fun best => candidate.before best then
                { eligible with best := some candidate }
              else
                eligible

/-- Why no worker slot could be had. -/
inductive Reject
  | contextTooSmall
  | unknownModel (model : String)
  | unavailable
  | queueFull
  | queueTimeout
  | exhausted
  | allRefused
deriving Repr, DecidableEq

/-- How a pick without a slot ends. -/
inductive NoSlot
  | busy
  | reject (reason : Reject)
deriving Repr, DecidableEq

/-- The end of `try_pick` when no worker was found; `allReported` says whether
every worker has reported by then. -/
def Scan.verdict (scan : Scan n R) (model : Option String) (allReported : Bool) : NoSlot :=
  if scan.anyEligible then
    .busy
  else if scan.anyExcluded then
    .reject .exhausted
  else if scan.contextMismatch && !scan.contextPossible then
    .reject .contextTooSmall
  else
    match scan.modelKnown, model, allReported with
    | false, some wanted, true => .reject (.unknownModel wanted)
    | _, _, _ => .reject .unavailable

/-- `reserve` a slot for a generation request: the end of `try_pick`. -/
def Worker.reserve (worker : Worker) (model : Option String) (units : Nat) : Worker :=
  { worker with
    dispatchGeneration := worker.dispatchGeneration + 1
    dispatched := worker.dispatched + 1
    dispatchedByModel :=
      match model with
      | none => worker.dispatchedByModel
      | some model => worker.dispatchedByModel.add model 1
    workByModel :=
      match model with
      | none => worker.workByModel
      | some model => worker.workByModel.add model units }

/-! ### Audio -/

/-- The variables of the loop of `try_pick_audio`. -/
structure AudioScan where
  busy : Bool := false
  tried : Bool := false

/-- One round of the loop of `try_pick_audio`: the variables, and whether the
worker is taken. -/
def lookAudio (config : CoordinatorConfig) (exclude : List (Fin n))
    (index : Fin n) (worker : Worker) (scan : AudioScan) : AudioScan × Bool :=
  match worker.status.info with
  | none => (scan, false)
  | some info =>
    if !(worker.status.healthy && info.capabilities.transcriptions) then
      (scan, false)
    else if exclude.contains index then
      ({ scan with tried := true }, false)
    else if 0 < satAdd worker.audioDispatched worker.status.observedAudioInFlight then
      ({ scan with busy := true }, false)
    else if config.workerSlots.any fun cap =>
        max cap 1 ≤ wrapAdd worker.dispatched worker.status.externalInFlight then
      ({ scan with busy := true }, false)
    else
      (scan, true)

/-- The end of `try_pick_audio` when no worker was taken. -/
def AudioScan.verdict (scan : AudioScan) : NoSlot :=
  if scan.busy then .busy
  else if scan.tried then .reject .exhausted
  else .reject .unavailable

def Worker.reserveAudio (worker : Worker) : Worker :=
  { worker with
    audioDispatched := worker.audioDispatched + 1
    dispatched := worker.dispatched + 1 }

/-! ### Giving a slot back -/

/-- One reserved worker slot. -/
structure SlotGuard (n : Nat) where
  audio : Bool
  index : Fin n
  model : Option String
  work : Nat

/-- The drop of a guard takes one lock after the other, so that the counters
it lowers are lowered one at a time. -/
inductive Phase
  | live
  /-- The request is off its model's count. -/
  | droppingWork
  /-- Its work is off its model's sum. -/
  | droppingSlot
  /-- The slot is free; an audio guard has still to say so. -/
  | droppingAudio
deriving Repr, DecidableEq

namespace Worker

section
variable (worker : Worker)

def dropCount (model : String) : Worker :=
  { worker with dispatchedByModel := worker.dispatchedByModel.sub model 1 }

def dropWork (model : String) (work : Nat) : Worker :=
  { worker with workByModel := worker.workByModel.sub model work }

def dropSlot : Worker :=
  { worker with dispatched := worker.dispatched - 1 }

def dropAudio : Worker :=
  { worker with
    audioDispatched := worker.audioDispatched - 1
    status :=
      { worker.status with
        audioCompletionEpoch := wrapAdd worker.status.audioCompletionEpoch 1 } }

def markUnhealthy : Worker :=
  { worker with status := { worker.status with healthy := false } }

end

end Worker

/-! ### Probes -/

/-- What the coordinator read of its own share around a probe. -/
structure OwnShare where
  ours : Nat
  audioProbeEpoch : Nat
  oursByModel : Counts String
  generation : Nat

/-- The update `refresh` makes after a probe; no report is a failed probe. -/
def WorkerStatus.applyProbe (status : WorkerStatus)
    (report : Option WorkerInfo) (own : OwnShare) : WorkerStatus :=
  match report with
  | none => { status with healthy := false }
  | some info =>
    if info.protocolVersion ≠ workerProtocolVersion then
      { status with healthy := false, info := some info }
    else
      { status with
        residencyGeneration := own.generation
        observedAudioInFlight := info.transcriptionInFlight.toNat
        audioProbeEpoch := own.audioProbeEpoch
        externalInFlight := satAdd (info.inFlight.toNat - own.ours) info.transcriptionInFlight.toNat
        externalByModel :=
          info.models.foldl
            (fun counts slots => counts.insert slots.id
              (slots.inFlight.toNat - own.oursByModel.read slots.id)) ∅
        healthy := true
        info := some info }

/-! ## The router as a whole -/

/-- A guard that exists, and how far its drop has come. -/
structure Held (n : Nat) where
  guard : SlotGuard n
  phase : Phase

/-- A pick in progress; it holds the pick lock, so that there is one at
most. -/
inductive Picking (n : Nat) (R : Type)
  | generation (args : PickArgs n) (start looked : Nat) (scan : Scan n R)
  | audio (exclude : List (Fin n)) (start looked : Nat) (scan : AudioScan)

structure System (n : Nat) (R : Type) where
  workers : Fin n → Worker
  held : List (Held n)
  picking : Option (Picking n R)

def System.init : System n R :=
  { workers := fun _ => {}, held := [], picking := none }

namespace System

/-- Change one worker, the guards and the pick in progress. -/
def exchange (system : System n R) (index : Fin n) (change : Worker → Worker) (held : List (Held n))
    (picking : Option (Picking n R)) : System n R :=
  { workers := Function.update system.workers index (change (system.workers index))
    held := held
    picking := picking }

/-- The `looked`-th worker of a loop that starts at `start`. -/
def rotated [NeZero n] (start looked : Nat) : Fin n :=
  Fin.ofNat n (start + looked)

end System

/-- One step of the router: a round of a pick, the end of one, a locked
section of a guard's drop, or an update of the registry. -/
inductive Step [NeZero n] [RatioOps R] (config : CoordinatorConfig) : System n R → System n R → Prop
  | pickStart {system args} (start : Nat) (free : system.picking = none)
      (kind : args.path ≠ .transcriptions) :
      Step config system { system with picking := some (.generation args start 0 {}) }
  | pickLook {system args start looked scan}
      (mine : system.picking = some (.generation args start looked scan))
      (more : looked < n) :
      Step config system
        { system with
          picking := some (.generation args start (looked + 1)
            (look config args (System.rotated start looked)
              (system.workers (System.rotated start looked)) scan)) }
  | pickCommit {system args start scan best}
      (mine : system.picking = some (.generation args start n scan))
      (found : scan.best = some best) :
      Step config system
        (system.exchange best.index
          (fun worker => worker.reserve (some best.model) args.work.units)
          ({ guard :=
              { audio := false
                index := best.index
                model := some best.model
                work := args.work.units }
             phase := .live } :: system.held) none)
  | pickFail {system args start scan}
      (mine : system.picking = some (.generation args start n scan))
      (missed : scan.best = none) :
      Step config system { system with picking := none }
  | audioStart {system exclude} (start : Nat) (free : system.picking = none) :
      Step config system { system with picking := some (.audio exclude start 0 {}) }
  | audioLook {system exclude start looked scan next}
      (mine : system.picking = some (.audio exclude start looked scan))
      (more : looked < n)
      (skips : lookAudio config exclude (System.rotated start looked)
        (system.workers (System.rotated start looked)) scan = (next, false)) :
      Step config system
        { system with
          picking := some (.audio exclude start (looked + 1) next) }
  | audioTake {system exclude start looked scan next}
      (mine : system.picking = some (.audio exclude start looked scan))
      (more : looked < n)
      (takes : lookAudio config exclude (System.rotated start looked)
        (system.workers (System.rotated start looked)) scan = (next, true)) :
      Step config system
        (system.exchange (System.rotated start looked) Worker.reserveAudio
          ({ guard :=
              { audio := true
                index := System.rotated start looked
                model := none
                work := 0 }
             phase := .live } :: system.held) none)
  | audioFail {system exclude start scan}
      (mine : system.picking = some (.audio exclude start n scan)) :
      Step config system { system with picking := none }
  | dropCount {system before after guard model}
      (has : system.held = before ++ ⟨guard, .live⟩ :: after)
      (names : guard.model = some model) :
      Step config system
        (system.exchange guard.index (fun worker => worker.dropCount model)
          (before ++ ⟨guard, .droppingWork⟩ :: after) system.picking)
  | dropWork {system before after guard model}
      (has : system.held = before ++ ⟨guard, .droppingWork⟩ :: after)
      (names : guard.model = some model) :
      Step config system
        (system.exchange guard.index
          (fun worker => worker.dropWork model guard.work)
          (before ++ ⟨guard, .droppingSlot⟩ :: after) system.picking)
  /-- A guard without a model has nothing to take off its worker's models. -/
  | dropUnnamed {system before after guard}
      (has : system.held = before ++ ⟨guard, .live⟩ :: after)
      (unnamed : guard.model = none) :
      Step config system
        (system.exchange guard.index id (before ++ ⟨guard, .droppingSlot⟩ :: after) system.picking)
  | dropSlot {system before after guard}
      (has : system.held = before ++ ⟨guard, .droppingSlot⟩ :: after)
      (silent : guard.audio = false) :
      Step config system
        (system.exchange guard.index Worker.dropSlot (before ++ after) system.picking)
  | dropAudioSlot {system before after guard}
      (has : system.held = before ++ ⟨guard, .droppingSlot⟩ :: after)
      (sounds : guard.audio = true) :
      Step config system
        (system.exchange guard.index Worker.dropSlot
          (before ++ ⟨guard, .droppingAudio⟩ :: after) system.picking)
  | dropAudio {system before after guard}
      (has : system.held = before ++ ⟨guard, .droppingAudio⟩ :: after)
      (sounds : guard.audio = true) :
      Step config system
        (system.exchange guard.index Worker.dropAudio (before ++ after) system.picking)
  | probe {system} (index : Fin n) (report : Option WorkerInfo)
      (own : OwnShare) :
      Step config system
        (system.exchange index (fun worker =>
            { worker with status := worker.status.applyProbe report own })
          system.held system.picking)
  | markUnhealthy {system} (index : Fin n) : Step config system
        (system.exchange index Worker.markUnhealthy system.held system.picking)

end Joshua.Coordinator
