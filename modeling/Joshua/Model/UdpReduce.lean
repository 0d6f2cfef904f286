/-
Module: Joshua.Model.UdpReduce
Purpose: The authenticated multicast all-reduce (`distributed/collective.rs`):
  datagrams, one round of the exchange loop, the fold of the inputs, and ranks
  over a network that loses, repeats, reorders and delays datagrams.
Trusted boundary: HMAC-SHA256 is a parameter, addition of single precision
  numbers is any function, and the clock and the socket decide what is due,
  how much is sent and when a call fails
-/
import Joshua.Foundation.Bytes
import Joshua.Model.Basic

namespace Joshua.UdpReduce
open Joshua.Foundation

/-! ## Datagrams -/

def magic : List UInt8 := ascii "JAR1"

/-- `HEADER`. -/
def headerLength : Nat := 48

/-- `TAG`. -/
def tagLength : Nat := 32

def chunkElements : Nat := 320

/-- `MAX_PACKET`. -/
def maxPacket : Nat := headerLength + chunkElements * 4 + tagLength

inductive Kind
  | data
  | ready
deriving Repr, DecidableEq

def Kind.code : Kind → UInt8
  | data => 1
  | ready => 2

structure Envelope where
  session : Uuid
  step : UInt64
  peers : Nat
  total : Nat
deriving DecidableEq

structure Packet where
  kind : Kind
  rank : Nat
  chunk : Nat
  payload : List UInt8
deriving Repr, DecidableEq

/-- `total.div_ceil(CHUNK_ELEMENTS)`. -/
def chunkCount (total : Nat) : Nat :=
  (total + chunkElements - 1) / chunkElements

/-- The values of a chunk. -/
def chunkLength (total chunk : Nat) : Nat :=
  min (total - chunk * chunkElements) chunkElements

/-- The fields of a header: magic, version, kind, reserved, session, step,
rank, peers, total, chunk, length, reserved. -/
def headerFields (envelope : Envelope) (kind : Kind) (rank chunk size : Nat) : List (List UInt8) :=
  [magic, [1], [kind.code], [0, 0], envelope.session.toList,
    beBytes 8 envelope.step.toNat, beBytes 2 rank, beBytes 2 envelope.peers,
    beBytes 4 envelope.total, beBytes 4 chunk, beBytes 2 size, [0, 0]]

def headerWidths : List Nat := [4, 1, 1, 2, 16, 8, 2, 2, 4, 4, 2, 2]

/-- The authenticated part of a datagram, as `encode` writes it. -/
def body (envelope : Envelope) (kind : Kind) (rank chunk : Nat)
    (values : List Float32Bits) : List UInt8 :=
  (headerFields envelope kind rank chunk (values.length * 4)).flatten ++ wordBytes values

/-- `encode`; a slice of the buffer is taken that has no room for more than a
chunk. -/
def encode (hmac : List UInt8 → List UInt8 → Digest) (psk : List UInt8) (envelope : Envelope)
    (kind : Kind) (rank chunk : Nat) (values : List Float32Bits) : Option (List UInt8) :=
  if values.length ≤ chunkElements then
    some (body envelope kind rank chunk values ++
      (hmac psk (body envelope kind rank chunk values)).toList)
  else none

/-- The kind of a datagram whose chunk and length are right for it. -/
def kindOf (code : List UInt8) (total chunk size : Nat) : Option Kind :=
  if code = [Kind.data.code] then
    if chunkCount total ≤ chunk ∨ size ≠ chunkLength total chunk * 4 then none
    else some .data
  else if code = [Kind.ready.code] ∧ chunk = 0 ∧ size = 0 then some .ready
  else none

/-- `decode`. -/
def decode (hmac : List UInt8 → List UInt8 → Digest) (psk bytes : List UInt8)
    (expected : Envelope) : Option Packet :=
  match cut headerWidths bytes with
  | [magic', version, code, reserved, session, step, rank, peers, total, chunk, size, reserved'] =>
      if ¬ (headerLength + tagLength ≤ bytes.length ∧
          bytes.length ≤ maxPacket ∧ magic' = magic ∧ version = [1] ∧
          reserved = [0, 0] ∧ reserved' = [0, 0] ∧
          session = expected.session.toList ∧
          beValue step = expected.step.toNat) then none
      else if ¬ (beValue peers = expected.peers ∧ 1 ≤ beValue peers ∧
          beValue peers ≤ maxParticipants ∧ beValue rank < beValue peers ∧
          beValue total = expected.total ∧
          beValue total ≤ maxTensorElements ∧
          beValue total * beValue peers ≤ maxTotalElements ∧
          bytes.length = headerLength + beValue size + tagLength) then none
      else
        match kindOf code (beValue total) (beValue chunk) (beValue size) with
        | none => none
        | some kind =>
          if (hmac psk (bytes.take (headerLength + beValue size))).toList ≠
              bytes.drop (headerLength + beValue size) then none
          else some ⟨kind, beValue rank, beValue chunk, slice headerLength (beValue size) bytes⟩
  | _ => none

/-! ## One rank -/

/-- `AllReduceGroup` as its constructor lets it through. -/
structure Group where
  rank : Nat
  peers : Nat
  session : Uuid
  psk : List UInt8
  step : UInt64
  poisoned : Bool
  previousLen : Option Nat
  few : peers ≤ maxParticipants
  member : rank < peers

/-- The variables of the exchange loop. -/
structure Exchange where
  values : List Float32Bits
  inputs : List Float32Bits
  seen : List Bool
  remaining : Nat
  ready : List Bool
  lingering : Bool
  sendChunk : Nat
deriving Repr, DecidableEq

/-- What the clock and the socket decide in one round of the loop. -/
structure Clock where
  lingerOver : Bool
  late : Bool
  ackDue : Nat → Bool
  readyDue : Bool
  roundDue : Bool
  sends : Nat

def sizeError : String := "all-reduce tensor exceeds bounded storage limits"

namespace Group

section
variable (group : Group)

/-- The envelope of a call. -/
def envelope (total : Nat) : Envelope :=
  ⟨group.session, group.step, group.peers, total⟩

/-- The envelope of the call before. -/
def previous (total : Nat) : Envelope :=
  ⟨group.session, group.step - 1, group.peers, total⟩

/-- `all_reduce_sum` up to its exchange, and the exchange up to its loop. -/
def begin (values : List Float32Bits) : Except String (Group × Exchange) :=
  if group.poisoned then
    .error "all-reduce group is poisoned; create a new session"
  else if ¬ (values.length ≤ maxTensorElements ∧
      values.length * group.peers ≤ maxTotalElements) then
    .error sizeError
  else if ¬ group.step.toNat + 1 < 2 ^ 64 then
    .error "collective step exhausted"
  else
    let chunks := chunkCount values.length
    let remaining := (group.peers - 1) * chunks
    .ok ({ group with poisoned := true },
      { values := values
        inputs := splice (group.rank * values.length) values
          (List.replicate (group.peers * values.length) 0)
        seen := List.replicate (group.peers * chunks) false
        remaining := remaining
        ready := (List.replicate group.peers false).set group.rank (remaining = 0)
        lingering := false
        sendChunk := chunks })

/-- The group behind a call that returns. -/
def returned (total : Nat) : Group :=
  { group with
    previousLen := some total, step := group.step + 1, poisoned := false }

end

end Group

namespace Exchange

/-- `accept_data`. -/
def acceptData (exchange : Exchange) (packet : Packet) : Exchange :=
  let total := exchange.values.length
  let slot := packet.rank * chunkCount total + packet.chunk
  if exchange.seen.getD slot false then exchange
  else { exchange with
    seen := exchange.seen.set slot true
    remaining := exchange.remaining - 1
    inputs := splice (packet.rank * total + packet.chunk * chunkElements)
      (readWords (packet.payload.length / 4) packet.payload)
      exchange.inputs }

section Loop
variable (hmac : List UInt8 → List UInt8 → Digest) (group : Group)

/-- One datagram: the variables behind it, and an acknowledgement of the step
before where one is due. -/
def receive (exchange : Exchange) (bytes : List UInt8) (ackDue : Bool) :
    Exchange × List (List UInt8) :=
  match decode hmac group.psk bytes (group.envelope exchange.values.length) with
  | some packet =>
    if packet.kind = .ready then
      ({ exchange with ready := exchange.ready.set packet.rank true }, [])
    else if packet.rank ≠ group.rank then (exchange.acceptData packet, [])
    else (exchange, [])
  | none =>
    match group.previousLen with
    | none => (exchange, [])
    | some total =>
      if ackDue ∧ (decode hmac group.psk bytes (group.previous total)).isSome then
        (exchange, [body (group.previous total) .ready group.rank 0 []])
      else (exchange, [])

/-- The datagrams of one round. -/
def receiveAll : Exchange → List (List UInt8 × Bool) → Exchange × List (List UInt8)
  | exchange, [] => (exchange, [])
  | exchange, (bytes, ackDue) :: rest =>
    let (after, acks) := exchange.receive hmac group bytes ackDue
    let (last, others) := receiveAll after rest
    (last, acks ++ others)

section
variable (exchange : Exchange)

/-- Behind the datagrams: whether this rank has everything, and whether all
ranks have. -/
def refresh : Exchange :=
  let ready := exchange.ready.set group.rank (exchange.remaining = 0)
  { exchange with
    ready := ready
    lingering := exchange.lingering || ready.all id }

/-- The chunks of one round: where sending starts, and how many are sent. -/
def sendRange (clock : Clock) : Nat × Nat :=
  let chunks := chunkCount exchange.values.length
  if exchange.lingering then (exchange.sendChunk, 0)
  else
    let start := if exchange.sendChunk = chunks ∧ clock.roundDue then 0
      else exchange.sendChunk
    (start, min (min clock.sends 16) (chunks - start))

/-- The datagrams that leave behind `refresh`; a rank that has just seen all
ranks ready says so at once. -/
def outgoing (clock : Clock) (justReady : Bool) : List (List UInt8) :=
  let total := exchange.values.length
  let ready :=
    if exchange.ready.getD group.rank false ∧ (clock.readyDue ∨ justReady) then
      [body (group.envelope total) .ready group.rank 0 []]
    else []
  let (start, count) := exchange.sendRange clock
  ready ++ (List.range count).map fun index =>
    body (group.envelope total) .data group.rank (start + index)
      (slice ((start + index) * chunkElements) (chunkLength total (start + index)) exchange.values)

end

/-- What a round of the loop comes to. -/
inductive Outcome
  | returned
  | late
  | next (exchange : Exchange) (sent : List (List UInt8))
deriving Repr, DecidableEq

/-- One round of the loop. -/
def tick (exchange : Exchange) (clock : Clock) (datagrams : List (List UInt8)) : Outcome :=
  if exchange.lingering ∧ clock.lingerOver then .returned
  else if clock.late then .late
  else
    let marked := (datagrams.take 64).mapIdx fun index bytes => (bytes, clock.ackDue index)
    let (received, acks) := exchange.receiveAll hmac group marked
    let fresh := received.refresh group
    let sent := acks ++ fresh.outgoing group clock (fresh.lingering && !exchange.lingering)
    let (start, count) := fresh.sendRange clock
    .next { fresh with sendChunk := start + count } sent

end Loop

/-- The fold of the inputs in ascending rank order. -/
def result (add : Float32Bits → Float32Bits → Float32Bits) (peers : Nat)
    (exchange : Exchange) : List Float32Bits :=
  (List.range exchange.values.length).map fun index =>
    (List.range peers).foldl
      (fun sum rank => add sum (exchange.inputs.getD (rank * exchange.values.length + index) 0)) 0

end Exchange

/-! ## Ranks over a network -/

/-- Ranks with their calls and their callers' vectors, the authenticated parts
of all datagrams that have been sent, and a record of the calls each rank has
begun (step, values), of what it has gathered where nothing was missing (step,
length, inputs), and of what it has returned (step, result). -/
structure Cluster (ι : Type) where
  groups : ι → Group
  calls : ι → Option Exchange
  vectors : ι → List Float32Bits
  network : List (List UInt8)
  called : ι → List (UInt64 × List Float32Bits)
  gathered : ι → List (UInt64 × Nat × List Float32Bits)
  returned : ι → List (UInt64 × List Float32Bits)

namespace Cluster

variable {ι : Type} [DecidableEq ι]
  (hmac : List UInt8 → List UInt8 → Digest)
  (add : Float32Bits → Float32Bits → Float32Bits)

/-- No datagram is forged: what passes a rank's authentication has been
sent. -/
def Authentic (cluster : Cluster ι) (group : Group) (bytes : List UInt8) : Prop :=
  ∀ size, (hmac group.psk (bytes.take size)).toList = bytes.drop size →
    bytes.take size ∈ cluster.network

/-- The record of a rank that misses nothing. -/
def gather (cluster : Cluster ι) (index : ι) (exchange : Exchange) :
    ι → List (UInt64 × Nat × List Float32Bits) :=
  if exchange.remaining = 0 then
    Function.update cluster.gathered index
      (((cluster.groups index).step, exchange.values.length,
        exchange.inputs) :: cluster.gathered index)
  else cluster.gathered

/-- What can happen: a rank starts a call, goes through a round of its loop
with any datagrams, breaks off in a round when some datagrams have left,
returns, or fails. -/
inductive Step : Cluster ι → Cluster ι → Prop
  | begin {cluster : Cluster ι} {index values group exchange}
      (idle : cluster.calls index = none)
      (begun : (cluster.groups index).begin values = .ok (group, exchange)) :
      Step cluster { cluster with
        groups := Function.update cluster.groups index group
        calls := Function.update cluster.calls index (some exchange)
        vectors := Function.update cluster.vectors index values
        called := Function.update cluster.called index
          ((group.step, values) :: cluster.called index)
        gathered := cluster.gather index exchange }
  | tick {cluster : Cluster ι} {index exchange clock datagrams after sent}
      (active : cluster.calls index = some exchange)
      (authentic : ∀ bytes ∈ datagrams, cluster.Authentic hmac (cluster.groups index) bytes)
      (ticked : exchange.tick hmac (cluster.groups index) clock datagrams = .next after sent) :
      Step cluster { cluster with
        calls := Function.update cluster.calls index (some after)
        network := sent ++ cluster.network
        gathered := cluster.gather index after }
  | breakOff {cluster : Cluster ι} {index exchange clock datagrams after sent left}
      (active : cluster.calls index = some exchange)
      (authentic : ∀ bytes ∈ datagrams, cluster.Authentic hmac (cluster.groups index) bytes)
      (ticked : exchange.tick hmac (cluster.groups index) clock datagrams = .next after sent)
      (first : left <+: sent) :
      Step cluster { cluster with
        calls := Function.update cluster.calls index none
        network := left ++ cluster.network
        gathered := cluster.gather index after }
  | return {cluster : Cluster ι} {index exchange clock datagrams}
      (active : cluster.calls index = some exchange)
      (ticked : exchange.tick hmac (cluster.groups index) clock datagrams = .returned) :
      Step cluster { cluster with
        groups := Function.update cluster.groups index
          ((cluster.groups index).returned exchange.values.length)
        calls := Function.update cluster.calls index none
        vectors := Function.update cluster.vectors index
          (exchange.result add (cluster.groups index).peers)
        returned := Function.update cluster.returned index
          (((cluster.groups index).step, exchange.result add (cluster.groups index).peers) ::
            cluster.returned index) }
  | fail {cluster : Cluster ι} {index exchange}
      (active : cluster.calls index = some exchange) :
      Step cluster { cluster with
        calls := Function.update cluster.calls index none }

/-- Ranks before their first calls. -/
structure Initial (cluster : Cluster ι) : Prop where
  calls : ∀ index, cluster.calls index = none
  poisoned : ∀ index, (cluster.groups index).poisoned = false
  previous : ∀ index, (cluster.groups index).previousLen = none
  network : cluster.network = []
  called : ∀ index, cluster.called index = []
  gathered : ∀ index, cluster.gathered index = []
  returned : ∀ index, cluster.returned index = []

end Cluster

end Joshua.UdpReduce
