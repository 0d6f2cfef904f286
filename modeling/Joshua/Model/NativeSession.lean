/-
Module: Joshua.Model.NativeSession
Purpose: A session over shared weights (`native_session.rs`): the state of
  every layer, the pending verification pass and the prefix checkpoints, with
  forward passes, truncation, snapshots and adapters.
Trusted boundary: the layers, the embedding and the head are the fields of a
  `LayerStack`; sessions and snapshots are over the same weights. Left out:
  the causal mask, the routing records and prefetch hints, and the state of
  the MTP block (`mtp` only says whether it is on), which serve drafts and
  prefetching and are not read by the layers.
-/
import Joshua.Foundation.Collections
import Joshua.Model.Basic

namespace Joshua.Native
open Joshua.Foundation

/-- Why a call fails: what the weights report, or a check of the session. -/
inductive SessionError
  | weights (message : String)
  /-- The history covers fewer positions than the input's offset. -/
  | tokenHistory (covers offset : Nat)
  /-- A rollback outside the span of the pending verification pass. -/
  | pendingPass (keep first last : Nat)
  /-- A recurrent model without a prefix checkpoint there. -/
  | noCheckpoint (keep : Nat)
  /-- Adapters that were not loaded for these weights. -/
  | adapters
  | emptyInput
deriving Repr, DecidableEq

/-- What a layer sees besides its input rows. -/
structure LayerInput (Adapters : Type) where
  offset : Nat
  tokens : List Token
  verify : Bool
  lora : Option Adapters

/-- A loader's weights: an embedding, a stack of layers and a head. -/
structure LayerStack where
  State : Type
  Snapshot : Type
  Checkpoint : Type
  Row : Type
  Logits : Type
  Adapters : Type
  Device : Type
  nLayers : Nat
  fresh : State
  device : Device
  sameDevice : Device → Device → Bool
  wantsTokens : Bool
  canTruncate : Bool
  canRewind : Bool
  adapterKey : Adapters → Digest
  /-- The adapters were loaded for these weights, on their device. -/
  acceptsAdapters : Adapters → Bool
  embed : List Token → List Row
  layer : Nat → List State → List Row → LayerInput Adapters →
    Except SessionError (List Row × List State)
  head : List Row → Except SessionError (List Logits)
  fusedDecode : List State → List Row → Nat → Except SessionError (Option (Logits × List State))
  truncateState : State → Nat → Except SessionError State
  beginVerify : State → State
  clearVerify : State → State
  snapshotState : State → Option Snapshot
  restoreState : State → Snapshot → Nat → Except SessionError State
  checkpointState : State → Option Checkpoint
  restoreCheckpoint : State → Checkpoint → Except SessionError State
  forkState : State → Nat → Device → Except SessionError State

/-! ## Prefix checkpoints -/

/-- The running state of every layer after `pos` tokens. -/
structure PrefixCheckpoint (C : Type) where
  pos : Nat
  layers : List (Option C)

structure PrefixCheckpoints (C : Type) where
  budget : Nat
  points : List (PrefixCheckpoint C)

namespace PrefixCheckpoints

variable {C : Type}

/-- `invalidate_after`. -/
def invalidateAfter (checkpoints : PrefixCheckpoints C) (pos : Nat) : PrefixCheckpoints C :=
  { checkpoints with
    points := checkpoints.points.filter fun point => point.pos ≤ pos }

/-- `best`: the latest checkpoint at or before `keep`. -/
def best (checkpoints : PrefixCheckpoints C) (keep : Nat) : Option (PrefixCheckpoint C) :=
  checkpoints.points.reverse.find? fun point => point.pos ≤ keep

/-- The gap that would be left without the checkpoint. -/
def gapWithout (points : List (PrefixCheckpoint C)) (index : Nat) : Nat :=
  let previous :=
    if index = 0 then 0
    else (points[index - 1]?.map PrefixCheckpoint.pos).getD 0
  (points[index + 1]?.map PrefixCheckpoint.pos).getD 0 - previous

/-- `thin`: remove the checkpoint whose loss widens a gap the least, never the
newest. -/
def thin (points : List (PrefixCheckpoint C)) : List (PrefixCheckpoint C) :=
  if points.length ≤ 1 then []
  else
    match minByKey? (gapWithout points) (List.range (points.length - 1)) with
    | some victim => points.eraseIdx victim
    | none => []

/-- The loop of `insert`, at most `fuel` times. -/
def thinTo (budget : Nat) : Nat → List (PrefixCheckpoint C) → List (PrefixCheckpoint C)
  | 0, points => points
  | fuel + 1, points =>
    if budget < points.length then thinTo budget fuel (thin points)
    else points

/-- `insert`, where the list is sorted. -/
def insert (checkpoints : PrefixCheckpoints C) (point : PrefixCheckpoint C) : PrefixCheckpoints C :=
  let others := checkpoints.points.filter fun other => other.pos ≠ point.pos
  let before := others.takeWhile fun other => other.pos < point.pos
  let after := others.dropWhile fun other => other.pos < point.pos
  let points := before ++ point :: after
  { checkpoints with points := thinTo checkpoints.budget points.length points }

end PrefixCheckpoints

/-- A verification pass that may be rolled back. -/
structure VerifyCheckpoint (S : Type) where
  offset : Nat
  seq : Nat
  layers : List (Option S)

/-- `retained`: how many tokens of the pass a rollback keeps. -/
def VerifyCheckpoint.retained {S : Type} (checkpoint : VerifyCheckpoint S)
    (keep : Nat) : Option Nat :=
  if checkpoint.offset ≤ keep ∧ keep ≤ checkpoint.offset + checkpoint.seq then
    some (keep - checkpoint.offset)
  else none

/-! ## Sessions -/

variable {W : LayerStack}

structure Session (W : LayerStack) where
  state : List W.State
  tokens : List Token
  verify : Option (VerifyCheckpoint W.Snapshot)
  checkpoints : PrefixCheckpoints W.Checkpoint
  mtp : Bool
  lora : Option W.Adapters

/-- `DEFAULT_PREFIX_CHECKPOINTS`. -/
def defaultPrefixCheckpoints : Nat := 4

namespace Session

/-- `from_weights`. -/
def fromWeights (W : LayerStack) : Session W where
  state := List.replicate W.nLayers W.fresh
  tokens := []
  verify := none
  checkpoints := { budget := defaultPrefixCheckpoints, points := [] }
  mtp := false
  lora := none

section
variable (session : Session W)

/-- `new_session`: the same weights and settings, the base model. -/
def newSession : Session W where
  state := List.replicate session.state.length W.fresh
  tokens := []
  verify := none
  checkpoints := { budget := session.checkpoints.budget, points := [] }
  mtp := session.mtp
  lora := none

/-- `adapter_key`. -/
def adapterKey : Option Digest :=
  session.lora.map W.adapterKey

/-- `record_tokens`. -/
def recordTokens (offset : Nat) (new : List Token) : Except SessionError (List Token) :=
  if !W.wantsTokens then .ok session.tokens
  else if session.tokens.length < offset then
    .error (.tokenHistory session.tokens.length offset)
  else .ok (session.tokens.take offset ++ new)

/-- `take_prefix_checkpoint`. -/
def takePrefixCheckpoint (pos : Nat) : Session W :=
  if session.checkpoints.budget = 0 || W.canTruncate then session
  else
    let layers := session.state.map W.checkpointState
    if layers.all Option.isNone then session
    else
      { session with checkpoints := session.checkpoints.insert { pos, layers } }

end

/-- The loop over the layers. -/
def runLayers (W : LayerStack) (input : LayerInput W.Adapters) :
    List Nat → List W.Row → List W.State → Except SessionError (List W.Row × List W.State)
  | [], rows, states => .ok (rows, states)
  | index :: rest, rows, states => do
      let (next, states) ← W.layer index states rows input
      runLayers W input rest next states

/-- The head over every row, or over the last one. -/
def headRows (W : LayerStack) (all : Bool) (rows : List W.Row) :
    Except SessionError (List W.Logits) :=
  if all then W.head rows
  else
    match rows.getLast? with
    | some row => W.head [row]
    | none => .error .emptyInput

section
variable (session : Session W)

/-- `forward_impl` layer by layer, with the layers armed before it if the pass
may be rolled back. -/
def forwardLayers (new : List Token) (offset : Nat) (all : Bool) (input : LayerInput W.Adapters) :
    Except SessionError (List W.Logits × Session W) := do
  let (rows, states) ← runLayers W input (List.range session.state.length)
    (W.embed new) session.state
  let next :=
    if all then
      { session with
        state := states.map W.clearVerify
        verify := some { offset, seq := new.length, layers := states.map W.snapshotState } }
    else if 1 < new.length then
      { session with state := states }.takePrefixCheckpoint (offset + new.length)
    else { session with state := states }
  let logits ← headRows W all rows
  return (logits, next)

/-- The session before the layers run: positions from `offset` on are
rewritten, and a pass that may be rolled back arms the layers. -/
def prepared (tokens : List Token) (offset : Nat) (all : Bool) : Session W :=
  { session with
    state := if all then session.state.map W.beginVerify else session.state
    tokens := tokens
    verify := none
    checkpoints := session.checkpoints.invalidateAfter offset }

def layerInput (tokens : List Token) (stop offset : Nat) (all : Bool) : LayerInput W.Adapters where
  offset := offset
  tokens := if W.wantsTokens then tokens.take stop else []
  verify := all
  lora := session.lora

/-- `forward_impl`. -/
def forwardImpl (new : List Token) (offset : Nat) (all : Bool)
    : Except SessionError (List W.Logits × Session W) := do
  let tokens ← session.recordTokens offset new
  let input := session.layerInput tokens (offset + new.length) offset all
  let ready := session.prepared tokens offset all
  if new.length = 1 ∧ !all ∧ !session.mtp ∧ session.lora.isNone then
    match ← W.fusedDecode ready.state (W.embed new) offset with
    | some (logits, states) => return ([logits], { ready with state := states })
    | none => ready.forwardLayers new offset all input
  else
    ready.forwardLayers new offset all input

/-- `forward`. -/
def forward (new : List Token) (offset : Nat) : Except SessionError (List W.Logits × Session W) :=
  session.forwardImpl new offset false

/-- `forward_all_logits`. -/
def forwardAllLogits (new : List Token) (offset : Nat) :
    Except SessionError (List W.Logits × Session W) :=
  session.forwardImpl new offset true

/-- `rewind_target`. -/
def rewindTarget (keep : Nat) : Nat :=
  if W.canTruncate then keep
  else ((session.checkpoints.best keep).map PrefixCheckpoint.pos).getD 0

/-- `checkpoint_prefix`. -/
def checkpointPrefix (pos : Nat) : Session W :=
  if 0 < pos ∧ session.verify.isNone ∧
      !(session.checkpoints.points.any fun point => point.pos = pos) then
    session.takePrefixCheckpoint pos
  else session

/-- `set_prefix_checkpoints`. -/
def setPrefixCheckpoints (budget : Nat) : Session W :=
  let points := session.checkpoints.points
  { session with
    checkpoints :=
      { budget
        points := PrefixCheckpoints.thinTo budget points.length points } }

/-- `clear_kv_cache`. -/
def clearKvCache : Session W :=
  { session with
    state := session.state.map fun _ => W.fresh
    tokens := []
    verify := none
    checkpoints := { session.checkpoints with points := [] } }

/-- `set_adapters`; whether the state was cleared. -/
def setAdapters (set : Option W.Adapters) : Except SessionError (Bool × Session W) :=
  if set.any fun adapters => !W.acceptsAdapters adapters then
    .error .adapters
  else if set.map W.adapterKey ≠ session.adapterKey then
    .ok (true, { session.clearKvCache with lora := set })
  else
    .ok (false, { session with lora := set })

/-- `discard_verify`. -/
def discardVerify : Session W :=
  { session with
    state := session.state.map W.clearVerify
    verify := none }

end

/-- A layer of a rollback: its own cut, and its snapshot if it has one. -/
def rollBackLayer (W : LayerStack) (keep retained : Nat) (state : W.State)
    (snapshot : Option W.Snapshot) : Except SessionError W.State := do
  let cut ← W.truncateState state keep
  match snapshot with
  | some snapshot => W.restoreState cut snapshot retained
  | none => return cut

/-- A layer of a rewind to a checkpoint. -/
def rewindLayer (W : LayerStack) (keep : Nat) (state : W.State)
    (checkpoint : Option W.Checkpoint) : Except SessionError W.State := do
  let cut ← W.truncateState state keep
  match checkpoint with
  | some checkpoint => W.restoreCheckpoint cut checkpoint
  | none => return cut

/-- The layers of `truncate_kv_cache`. -/
def truncateLayers (session : Session W) (keep : Nat) : Except SessionError (List W.State) :=
  match session.verify with
  | some checkpoint =>
    match checkpoint.retained keep with
    | none => .error (.pendingPass keep checkpoint.offset (checkpoint.offset + checkpoint.seq))
    | some retained =>
      (session.state.zip checkpoint.layers).mapM fun pair =>
        rollBackLayer W keep retained pair.1 pair.2
  | none =>
    if W.canTruncate then
      session.state.mapM fun state => W.truncateState state keep
    else
      match session.checkpoints.points.find? fun point => point.pos = keep
      with
      | none => .error (.noCheckpoint keep)
      | some checkpoint =>
        (session.state.zip checkpoint.layers).mapM fun pair =>
          rewindLayer W keep (W.clearVerify pair.1) pair.2

/-- `truncate_kv_cache`. -/
def truncateKvCache (session : Session W) (keep : Nat) : Except SessionError (Session W) := do
  let state ← session.truncateLayers keep
  return { session with
    state
    verify := none
    checkpoints := session.checkpoints.invalidateAfter keep
    tokens := session.tokens.take keep }

end Session

/-! ## Snapshots -/

/-- A detached state after `pos` tokens. -/
structure SessionSnapshot (W : LayerStack) where
  pos : Nat
  state : List W.State
  tokens : List Token
  adapters : Option Digest
  device : W.Device

namespace Session

/-- A layer of a snapshot. -/
def forkLayer (W : LayerStack) (keep : Nat) (device : W.Device) (state : W.State)
    (checkpoint : Option W.Checkpoint) : Except SessionError W.State :=
  match checkpoint with
  | some checkpoint => do
      let at_ ← rewindLayer W keep state (some checkpoint)
      W.forkState at_ keep device
  | none => W.forkState state keep device

/-- The running states that a snapshot at `keep` of `len` tokens starts from,
if it can be had. -/
def snapshotLayers (session : Session W) (keep len : Nat) : Option (List (Option W.Checkpoint)) :=
  if keep = 0 ∨ len < keep ∨ session.verify.isSome then none
  else if keep = len ∨ W.canTruncate then
    some (List.replicate session.state.length none)
  else
    (session.checkpoints.points.find? fun point => point.pos = keep).map PrefixCheckpoint.layers

/-- `snapshot`. -/
def snapshot (session : Session W) (keep len : Nat) (device : W.Device) :
    Except SessionError (Option (SessionSnapshot W)) :=
  match session.snapshotLayers keep len with
  | none => .ok none
  | some layers => do
      let state ← (session.state.zip layers).mapM fun pair => forkLayer W keep device pair.1 pair.2
      return some
        { pos := keep
          state
          tokens := if W.wantsTokens then session.tokens.take keep else []
          adapters := session.adapterKey
          device }

/-- The layers of a snapshot on the weights' device. -/
def fetchLayers (W : LayerStack) (snapshot : SessionSnapshot W) :
    Except SessionError (List W.State) :=
  if W.sameDevice snapshot.device W.device then .ok snapshot.state
  else snapshot.state.mapM fun state => W.forkState state snapshot.pos W.device

/-- `restore`: whether the snapshot was taken, and the session after it. -/
def restore (session : Session W) (snapshot : SessionSnapshot W) :
    Except SessionError (Bool × Session W) :=
  if snapshot.state.length ≠ session.state.length ∨ snapshot.adapters ≠ session.adapterKey then
    .ok (false, session)
  else do
    let state ← fetchLayers W snapshot
    let restored : Session W :=
      { session with
        state
        tokens := snapshot.tokens
        verify := none
        checkpoints := { session.checkpoints with points := [] } }
    return (true, restored.takePrefixCheckpoint snapshot.pos)

end Session

end Joshua.Native
