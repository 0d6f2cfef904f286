/-
Module: Joshua.Model.TcpRing
Purpose: The authenticated TCP ring all-reduce (`distributed/tcp.rs`): frames,
  the transfers of one call, the fold of the inputs, and two networks around
  the ranks: links that fail, and links that deliver in order.
Trusted boundary: HMAC-SHA256 and SHA-256 are parameters, addition of single
  precision numbers is any function, and the clock and the sockets decide
  when a call fails
-/
import Joshua.Foundation.Bytes
import Joshua.Model.Basic

namespace Joshua.TcpRing
open Joshua.Foundation

/-! ## Constants -/

def magic : List UInt8 := ascii "JTCPAR01"

/-- `HEADER`: the bytes of a header. -/
def headerLength : Nat := 88

def chunkElements : Nat := 1024

/-- The authenticated bytes of a frame. -/
def bodyLength : Nat := headerLength + chunkElements * 4

/-- `FRAME_LEN`. -/
def frameLength : Nat := bodyLength + 32

/-! ## Members -/

inductive Address
  | v4 (octets : Vector UInt8 4) (port : UInt16)
  | v6 (octets : Vector UInt8 16) (port : UInt16) (flowinfo scopeId : UInt32)
deriving DecidableEq

def Address.bytes : Address → List UInt8
  | v4 octets port => 4 :: (octets.toList ++ beBytes 2 port.toNat)
  | v6 octets port flowinfo scopeId =>
    6 :: (octets.toList ++ beBytes 2 port.toNat ++
      beBytes 4 flowinfo.toNat ++ beBytes 4 scopeId.toNat)

/-- What `membership_digest` hashes. -/
def membershipInput (peers : List Address) : List UInt8 :=
  magic ++ beBytes 4 peers.length ++ peers.flatMap Address.bytes

/-- `TcpAllReduceGroup` as its constructor lets it through. -/
structure Group where
  peers : List Address
  rank : Nat
  session : Uuid
  psk : List UInt8
  step : UInt64
  poisoned : Bool
  few : peers.length ≤ maxParticipants
  member : rank < peers.length

/-! ## Frames -/

inductive Kind
  | hello
  | data
  | ready
deriving Repr, DecidableEq

def Kind.code : Kind → Nat
  | hello => 1
  | data => 2
  | ready => 3

structure Frame where
  kind : Kind
  rank : Nat
  total : Nat
  round : Nat
  origin : Nat
  chunk : Nat
deriving Repr, DecidableEq

section Frames
variable (sha256 : List UInt8 → Digest) (hmac : List UInt8 → List UInt8 → Digest)

def Group.membership (group : Group) : Digest :=
  sha256 (membershipInput group.peers)

def Group.header (group : Group) (frame : Frame) : List UInt8 :=
  magic ++ group.session.toList ++ (group.membership sha256).toList ++
    beBytes 8 group.step.toNat ++ beBytes 4 frame.rank ++
    beBytes 4 frame.total ++ beBytes 4 frame.round ++
    beBytes 4 frame.origin ++ beBytes 4 frame.chunk ++
    beBytes 4 frame.kind.code

/-- The bytes of values, with zeros up to a whole chunk. -/
def payload (values : List Float32Bits) : List UInt8 :=
  wordBytes values ++ List.replicate (chunkElements * 4 - values.length * 4) 0

/-- The authenticated part of a frame. -/
def Group.body (group : Group) (frame : Frame) (values : List Float32Bits) : List UInt8 :=
  group.header sha256 frame ++ payload values

/-- `encode`. -/
def Group.encode (group : Group) (frame : Frame) (values : List Float32Bits) : List UInt8 :=
  group.body sha256 frame values ++ (hmac group.psk (group.body sha256 frame values)).toList

/-- `decode`: the values of a frame that is expected to have `count`. -/
def Group.decode (group : Group) (bytes : List UInt8) (expected : Frame)
    (count : Nat) : Except String (List Float32Bits) :=
  if bytes.length ≠ frameLength then .error "invalid TCP ring frame length"
  else if (hmac group.psk (bytes.take bodyLength)).toList ≠ bytes.drop bodyLength then
    .error "TCP ring authentication failed"
  else if bytes.take headerLength ≠ group.header sha256 expected then
    .error "TCP ring session, membership or collective frame mismatch"
  else if ¬ ((bytes.take bodyLength).drop (headerLength + count * 4)).all (· = 0) then
    .error "invalid TCP ring frame padding"
  else .ok (readWords count (bytes.drop headerLength))

end Frames

/-! ## The transfers of a call -/

/-- One transfer: the greeting, a chunk in a round, or a completion token. -/
inductive Slot
  | hello
  | data (round chunk : Nat)
  | ready (round : Nat)
deriving Repr, DecidableEq

/-- `total.div_ceil(CHUNK_ELEMENTS)`. -/
def chunkCount (total : Nat) : Nat :=
  (total + chunkElements - 1) / chunkElements

/-- The transfers of `exchange` in their order. -/
def slots (peers total : Nat) : List Slot :=
  if peers = 1 then []
  else
    .hello :: ((List.range (peers - 1)).flatMap fun round =>
        (List.range (chunkCount total)).map fun chunk => .data round chunk) ++
      (List.range (peers - 1)).map fun round => .ready round

def predecessor (peers rank : Nat) : Nat :=
  (rank + peers - 1) % peers

/-- Whose input a rank passes on in a round. -/
def sentOrigin (peers rank round : Nat) : Nat :=
  (rank + peers - round) % peers

/-- Whose input a rank gets in a round. -/
def receivedOrigin (peers rank round : Nat) : Nat :=
  (sentOrigin peers rank round + peers - 1) % peers

/-- The values of a transfer. -/
def slotLength (total : Nat) : Slot → Nat
  | .data _ chunk => min (total - chunk * chunkElements) chunkElements
  | _ => 0

/-- A call: the caller's values, what is known of all inputs, the transfers
that are done, and whether the present frame has been written. -/
structure Call where
  values : List Float32Bits
  inputs : List Float32Bits
  done : Nat
  sent : Bool
deriving Repr, DecidableEq

/-- The error of a call with too many values. -/
def sizeError : String := "all-reduce tensor exceeds bounded storage limits"

namespace Group

section
variable (group : Group) (total : Nat)

def sendFrame : Slot → Frame
  | .hello => ⟨.hello, group.rank, total, 0, group.rank, 0⟩
  | .data round chunk =>
    ⟨.data, group.rank, total, round, sentOrigin group.peers.length group.rank round, chunk⟩
  | .ready round =>
    ⟨.ready, group.rank, total, round, sentOrigin group.peers.length group.rank round, 0⟩

def receiveFrame : Slot → Frame
  | .hello =>
    ⟨.hello, predecessor group.peers.length group.rank, total, 0,
      predecessor group.peers.length group.rank, 0⟩
  | .data round chunk =>
    ⟨.data, predecessor group.peers.length group.rank, total, round,
      receivedOrigin group.peers.length group.rank round, chunk⟩
  | .ready round =>
    ⟨.ready, predecessor group.peers.length group.rank, total, round,
      receivedOrigin group.peers.length group.rank round, 0⟩

/-- The values that a rank sends in a transfer. -/
def source (inputs : List Float32Bits) : Slot → List Float32Bits
  | .data round chunk =>
    slice (sentOrigin group.peers.length group.rank round * total +
      chunk * chunkElements) (slotLength total (.data round chunk)) inputs
  | _ => []

/-- The inputs with the values that a rank got in a transfer. -/
def store (inputs : List Float32Bits) (values : List Float32Bits) : Slot → List Float32Bits
  | .data round chunk =>
    splice (receivedOrigin group.peers.length group.rank round * total +
      chunk * chunkElements) values inputs
  | _ => inputs

end

/-- `all_reduce_sum` up to its exchange. -/
def begin (group : Group) (values : List Float32Bits) : Except String (Group × Call) :=
  if group.poisoned then
    .error "all-reduce group is poisoned; create a new session"
  else if ¬ (values.length ≤ maxTensorElements ∧
      values.length * group.peers.length ≤ maxTotalElements) then
    .error sizeError
  else if ¬ group.step.toNat + 1 < 2 ^ 64 then
    .error "collective step exhausted"
  else .ok ({ group with poisoned := true },
    { values := values
      inputs := splice (group.rank * values.length) values
        (List.replicate (group.peers.length * values.length) 0)
      done := 0
      sent := false })

section Transfers
variable (sha256 : List UInt8 → Digest) (hmac : List UInt8 → List UInt8 → Digest)

section
variable (group : Group) (call : Call)

/-- The slot of the present transfer. -/
def slot : Option Slot :=
  (slots group.peers.length call.values.length)[call.done]?

/-- The frame of the present transfer. -/
def transmit : Option (List UInt8) :=
  (group.slot call).map fun slot =>
    group.encode sha256 hmac (group.sendFrame call.values.length slot)
      (group.source call.values.length call.inputs slot)

/-- The end of the present transfer with the bytes that have been read. -/
def receive (bytes : List UInt8) : Except String Call :=
  match group.slot call with
  | none => .error "TCP ring not connected"
  | some slot =>
    match group.decode sha256 hmac bytes
        (group.receiveFrame call.values.length slot)
        (slotLength call.values.length slot) with
    | .error message => .error message
    | .ok values => .ok { call with
        inputs := group.store call.values.length call.inputs values slot
        done := call.done + 1
        sent := false }

end

end Transfers

/-- The fold of the inputs in ascending rank order, into the place of rank
zero's input. -/
def foldInputs (add : Float32Bits → Float32Bits → Float32Bits)
    (peers size : Nat) (inputs : List Float32Bits) : List Float32Bits :=
  (List.range size).foldl
    (fun inputs index =>
      inputs.set index ((List.range peers).foldl
        (fun sum rank => add sum (inputs.getD (rank * size + index) 0)) 0))
    inputs

/-- The return of a call whose transfers are all done: the caller's new values
and the group. -/
def finish (add : Float32Bits → Float32Bits → Float32Bits) (group : Group)
    (call : Call) : Option (List Float32Bits × Group) :=
  if call.done = (slots group.peers.length call.values.length).length then
    some ((foldInputs add group.peers.length call.values.length
        call.inputs).take call.values.length,
      { group with step := group.step + 1, poisoned := false })
  else none

end Group

/-! ## Ranks over links that fail -/

/-- Ranks with their calls and their callers' vectors, the frames that have
been written, and what each rank has reached: a step, a length and a number of
transfers. -/
structure Ring (ι : Type) where
  groups : ι → Group
  calls : ι → Option Call
  vectors : ι → List Float32Bits
  written : List (List UInt8)
  reached : ι → List (UInt64 × Nat × Nat)

namespace Ring

section Steps
variable {ι : Type} [DecidableEq ι] (sha256 : List UInt8 → Digest)
  (hmac : List UInt8 → List UInt8 → Digest)
  (add : Float32Bits → Float32Bits → Float32Bits)

/-- Bytes that pass a rank's authentication have been written by some rank. -/
def Authentic (ring : Ring ι) (group : Group) (bytes : List UInt8) : Prop :=
  (hmac group.psk (bytes.take bodyLength)).toList = bytes.drop bodyLength →
    ∃ frame ∈ ring.written, frame.take bodyLength = bytes.take bodyLength

/-- What can happen: a rank starts a call with any values, writes the present
frame, reads any authentic bytes, returns, or fails. -/
inductive Step : Ring ι → Ring ι → Prop
  | begin {ring : Ring ι} {index values group call}
      (idle : ring.calls index = none)
      (begun : (ring.groups index).begin values = .ok (group, call)) :
      Step ring { ring with
        groups := Function.update ring.groups index group
        calls := Function.update ring.calls index (some call)
        vectors := Function.update ring.vectors index values
        reached := Function.update ring.reached index
          ((group.step, values.length, 0) :: ring.reached index) }
  | write {ring : Ring ι} {index call frame}
      (active : ring.calls index = some call) (unsent : call.sent = false)
      (present : (ring.groups index).transmit sha256 hmac call = some frame) :
      Step ring { ring with
        calls := Function.update ring.calls index (some { call with sent := true })
        written := frame :: ring.written }
  | read {ring : Ring ι} {index call bytes after}
      (active : ring.calls index = some call) (sent : call.sent = true)
      (authentic : ring.Authentic hmac (ring.groups index) bytes)
      (received : (ring.groups index).receive sha256 hmac call bytes = .ok after) :
      Step ring { ring with
        calls := Function.update ring.calls index (some after)
        reached := Function.update ring.reached index
          (((ring.groups index).step, after.values.length, after.done) :: ring.reached index) }
  | return {ring : Ring ι} {index call result group}
      (active : ring.calls index = some call)
      (finished : (ring.groups index).finish add call = some (result, group)) :
      Step ring { ring with
        groups := Function.update ring.groups index group
        calls := Function.update ring.calls index none
        vectors := Function.update ring.vectors index result }
  | fail {ring : Ring ι} {index call}
      (active : ring.calls index = some call) :
      Step ring { ring with calls := Function.update ring.calls index none }

end Steps

/-- Ranks before their first calls, each with its own session, members and
step. -/
structure Initial {ι : Type} (ring : Ring ι) : Prop where
  calls : ∀ index, ring.calls index = none
  poisoned : ∀ index, (ring.groups index).poisoned = false
  written : ring.written = []
  reached : ∀ index, ring.reached index = []

end Ring

/-! ## Ranks over links that deliver in order -/

/-- A call of all ranks: what each rank has come to, or its error, and what is
under way from each rank to its successor. -/
structure Links (peers : Nat) where
  calls : Fin peers → Except String Call
  links : Fin peers → List (List UInt8)

namespace Links

variable {peers : Nat} (sha256 : List UInt8 → Digest)
  (hmac : List UInt8 → List UInt8 → Digest) (groups : Fin peers → Group)

/-- The rank whose frames a rank reads. -/
def before (rank : Fin peers) : Fin peers :=
  ⟨predecessor peers rank.val, Nat.mod_lt _ (Fin.pos rank)⟩

/-- What can happen: a rank writes the present frame, or takes the first frame
from its predecessor. -/
inductive Step : Links peers → Links peers → Prop
  | write {state : Links peers} {rank call frame}
      (active : state.calls rank = .ok call) (unsent : call.sent = false)
      (present : (groups rank).transmit sha256 hmac call = some frame) :
      Step state {
        calls := Function.update state.calls rank (.ok { call with sent := true })
        links := Function.update state.links rank (state.links rank ++ [frame]) }
  | read {state : Links peers} {rank call bytes rest}
      (active : state.calls rank = .ok call) (sent : call.sent = true)
      (arrived : state.links (before rank) = bytes :: rest) :
      Step state {
        calls := Function.update state.calls rank ((groups rank).receive sha256 hmac call bytes)
        links := Function.update state.links (before rank) rest }

end Links

end Joshua.TcpRing
