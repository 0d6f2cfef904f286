/-
Module: Joshua.Model.PipelineWire
Purpose: The authenticated frames of the pipeline, of its controller-managed
  workers and of the expert channel (`Wire` in `distributed/pipeline.rs`), and
  a network that an adversary controls between such wires.
Trusted boundary: HMAC-SHA256, SHA-256 and the JSON form of a command are
  parameters; on the network a frame is given by its body and its tag
-/
import Joshua.Foundation.Bytes
import Joshua.Model.Basic

namespace Joshua.Pipeline
open Joshua.Foundation

/-! ## Plans and packets -/

/-- `MAX_HEADER`. -/
def maxHeader : Nat := 64 * 1024

/-- `SLICE_CHUNK`. -/
def sliceChunk : Nat := 1024 * 1024

structure Limits where
  context : Nat
  chunk : Nat
  sessions : Nat
  queueDepth : Nat
  batch : Nat
  timeoutMs : Nat
  coordinatorMemoryBudget : Nat
deriving Repr, DecidableEq

structure Stage where
  start : Nat
  stop : Nat
  memoryBudget : Nat
deriving Repr, DecidableEq

structure Plan where
  version : Nat
  modelSha256 : String
  layers : Nat
  hidden : Nat
  vocab : Nat
  limits : Limits
  stages : List Stage
deriving Repr, DecidableEq

inductive Command
  | hello (plan : Plan) (rank : Nat)
  | «open» (id : Nat)
  | forward (id sequence offset : Nat) (tokens : List Token)
  | close (id : Nat)
  | stop
  | reply (computeNs : Nat)
  | probe
  | capacity (availableBytes : Nat)
  | assign (plan : Plan) (rank : Nat) (slice : String) (bytes : Nat)
  | ready (cached : Bool)
  | chunk
  | commit (sha256 : String)
  | failed (message : String)
deriving Repr, DecidableEq

structure Packet where
  command : Command
  values : List Float32Bits
  bytes : List UInt8
deriving Repr, DecidableEq

/-- `Packet::control`. -/
def Packet.control (command : Command) : Packet := ⟨command, [], []⟩

/-- `Packet::values`. -/
def Packet.withValues (command : Command) (values : List Float32Bits) : Packet :=
  ⟨command, values, []⟩

/-- The packets the three protocols send. -/
inductive Packet.Built : Packet → Prop
  | control (command) : Built (Packet.control command)
  | forward (id sequence offset tokens values) :
      Built (Packet.withValues (.forward id sequence offset tokens) values)
  | reply (computeNs values) : Built (Packet.withValues (.reply computeNs) values)
  | chunk (bytes) : Built ⟨.chunk, [], bytes⟩

/-- The JSON form of commands. -/
structure Codec where
  encode : Command → List UInt8
  decode : List UInt8 → Option Command

/-! ## Wires -/

/-- The protocols that share the framing. -/
inductive Protocol
  | pipeline
  | agent
  | expert
deriving Repr, DecidableEq

def Protocol.domain : Protocol → List UInt8
  | pipeline => ascii "joshua-qwen3-pipeline-v1"
  | agent => ascii "joshua-qwen3-agent-v1"
  | expert => ascii "joshua-complete-expert-v1"

structure Wire where
  key : List UInt8
  protocol : Protocol
  job : Uuid
  rank : UInt64
  client : Bool
  tx : UInt64
  rx : UInt64
  valuesLimit : Nat
  bytesLimit : Nat
deriving DecidableEq

/-- A frame's body and its authentication. -/
structure Frame (Tag : Type) where
  body : List UInt8
  tag : Tag
deriving DecidableEq

/-- The bytes of a frame on the stream. -/
def Frame.bytes (frame : Frame Digest) : List UInt8 :=
  leBytes 4 frame.body.length ++ frame.body ++ frame.tag.toList

/-- What `mac` feeds to HMAC. -/
def macInput (protocol : Protocol) (job : Uuid) (rank : UInt64) (client : Bool)
    (sequence : UInt64) (payload : List UInt8) : List UInt8 :=
  protocol.domain ++ job.toList ++ leBytes 8 rank.toNat ++
    [if client then 1 else 0] ++ leBytes 8 sequence.toNat ++
    leBytes 8 payload.length ++ payload

/-- The body of a packet's frame. -/
def encodeBody (codec : Codec) (packet : Packet) : List UInt8 :=
  let header := codec.encode packet.command
  leBytes 4 header.length ++ header ++
    packet.values.flatMap (fun value => leBytes 4 value.toNat) ++ packet.bytes

/-- `f32::from_le_bytes` over `chunks_exact(4)`. -/
def readValues : List UInt8 → List Float32Bits
  | a :: b :: c :: d :: rest => UInt32.ofNat (leValue [a, b, c, d]) :: readValues rest
  | _ => []

/-- The packet in an authenticated body. -/
def readBody (codec : Codec) (valuesLimit bytesLimit : Nat)
    (body : List UInt8) : Except String Packet :=
  let h := leValue (body.take 4)
  if ¬ (h ≤ maxHeader ∧ h ≤ body.length - 4) then
    .error "invalid header size"
  else
    match codec.decode ((body.drop 4).take h) with
    | none => .error "invalid control header"
    | some command =>
      let payload := body.drop (4 + h)
      if command = .chunk then
        if bytesLimit < payload.length then
          .error "invalid byte payload length"
        else .ok ⟨command, [], payload⟩
      else if ¬ (payload.length % 4 = 0 ∧ payload.length / 4 ≤ valuesLimit) then
        .error "invalid f32 payload length"
      else
        let values := readValues payload
        if values.all Float32Bits.isFinite then .ok ⟨command, values, []⟩
        else .error "nonfinite input activation"

namespace Wire

section Frames
variable {Tag : Type} (codec : Codec) (hmac : List UInt8 → List UInt8 → Tag)

/-- `mac`. -/
def mac (wire : Wire) (client : Bool) (sequence : UInt64) (payload : List UInt8) : Tag :=
  hmac wire.key (macInput wire.protocol wire.job wire.rank client sequence payload)

/-- `send`: the frame that leaves, if it leaves as a whole, and the wire behind
it. Whether the stream takes all bytes in time is `written`. -/
def send (wire : Wire) (packet : Packet) (written : Bool) :
    Option (Frame Tag) × Except String Wire :=
  if ¬ (packet.values.length ≤ wire.valuesLimit ∧ packet.values.all Float32Bits.isFinite) then
    (none, .error "invalid output payload")
  else if ¬ (packet.bytes.length ≤ wire.bytesLimit ∧ (packet.bytes = [] ∨ packet.command = .chunk) ∧
      (packet.values = [] ∨ packet.bytes = [])) then
    (none, .error "invalid byte payload")
  else if maxHeader < (codec.encode packet.command).length then
    (none, .error "control header too large")
  else if ¬ written then (none, .error "write failed")
  else
    let body := encodeBody codec packet
    let frame := ⟨body, wire.mac hmac wire.client wire.tx body⟩
    -- the bytes have left before the counter is found to be exhausted
    if wire.tx.toNat + 1 < 2 ^ 64 then
      (some frame, .ok { wire with tx := wire.tx + 1 })
    else (some frame, .error "wire sequence exhausted")

variable [DecidableEq Tag]

/-- `receive` on a frame that the stream has delivered. -/
def receive (wire : Wire) (frame : Frame Tag) : Except String (Wire × Packet) :=
  if ¬ (4 ≤ frame.body.length ∧ frame.body.length ≤
      4 + maxHeader + max (wire.valuesLimit * 4) wire.bytesLimit) then
    .error "invalid frame size"
  else if wire.mac hmac (!wire.client) wire.rx frame.body ≠ frame.tag then
    .error "pipeline authentication/replay failure"
  else
    match readBody codec wire.valuesLimit wire.bytesLimit frame.body with
    | .error message => .error message
    | .ok packet =>
      if wire.rx.toNat + 1 < 2 ^ 64 then
        .ok ({ wire with rx := wire.rx + 1 }, packet)
      else .error "wire sequence exhausted"

end Frames

/-- `receive` on the bytes that the stream delivers, with those that are left
for the next frame. -/
def receiveFrom (codec : Codec) (hmac : List UInt8 → List UInt8 → Digest) (wire : Wire)
    (stream : List UInt8) : Except String (Wire × Packet × List UInt8) :=
  let length := leValue (stream.take 4)
  let rest := stream.drop 4
  if stream.length < 4 then .error "read failed"
  else if ¬ (4 ≤ length ∧ length ≤ 4 + maxHeader + max (wire.valuesLimit * 4) wire.bytesLimit) then
    .error "invalid frame size"
  else if rest.length < length + 32 then .error "read failed"
  else
    let tag := Vector.ofFn fun place => (rest.drop length).getD place 0
    match wire.receive codec hmac ⟨rest.take length, tag⟩ with
    | .error message => .error message
    | .ok (after, packet) => .ok (after, packet, rest.drop (length + 32))

end Wire

/-! ## Connections -/

/-- What a wire is made for: a pipeline's rank under a job, a controller's
connection to a worker with both sides' nonces, or an owner of experts. -/
inductive Origin
  | pipeline (job : Uuid) (rank : UInt64)
  | agent (worker controller : Uuid)
  | expert (job : Uuid) (owner : UInt64)
deriving DecidableEq

/-- What `session_id` hashes. -/
def sessionInput (worker controller : Uuid) : List UInt8 :=
  ascii "joshua-qwen3-agent-session" ++ worker.toList ++ controller.toList

/-- `session_id`: the first half of the digest. -/
def sessionId (sha256 : List UInt8 → Digest) (worker controller : Uuid) : Uuid :=
  ((sha256 (sessionInput worker controller)).take 16).cast (by decide)

namespace Origin

variable (sha256 : List UInt8 → Digest)

def protocol : Origin → Protocol
  | pipeline _ _ => .pipeline
  | agent _ _ => .agent
  | expert _ _ => .expert

def job : Origin → Uuid
  | pipeline job _ => job
  | agent worker controller => sessionId sha256 worker controller
  | expert job _ => job

def rank : Origin → UInt64
  | pipeline _ rank => rank
  | agent _ _ => 0
  | expert _ owner => owner

/-- `Wire::new`, `Wire::agent` and `ExpertChannel::new`. -/
def wire (key : List UInt8) (client : Bool) (valuesLimit bytesLimit : Nat)
    (origin : Origin) : Wire where
  key := key
  protocol := origin.protocol
  job := origin.job sha256
  rank := origin.rank
  client := client
  tx := 0
  rx := 0
  valuesLimit := match origin with
    | pipeline _ _ => valuesLimit
    | _ => 0
  bytesLimit := match origin with
    | pipeline _ _ => 0
    | agent _ _ => sliceChunk
    | expert _ _ => bytesLimit

/-- The random part that one side of a connection has chosen itself. -/
def ownNonce (client : Bool) : Origin → Uuid × UInt64
  | pipeline job rank => (job, rank)
  | agent worker controller => (if client then controller else worker, 0)
  | expert job owner => (job, owner)

end Origin

/-! ## The network -/

/-- Wires, what each of them has sent and accepted, and the tags that have
been on the network. -/
structure Network (ι Tag : Type) where
  wires : ι → Wire
  sent : ι → List Packet
  accepted : ι → List Packet
  recorded : List Tag

namespace Network

variable {ι Tag : Type} [DecidableEq ι] [DecidableEq Tag] (codec : Codec)
  (hmac : List UInt8 → List UInt8 → Tag)

section
variable (net : Network ι Tag) (index : ι)

/-- A wire sends. -/
def afterSend (packet : Packet) (written : Bool) : Network ι Tag :=
  let (frame, result) := (net.wires index).send codec hmac packet written
  let recorded := net.recorded ++ (frame.map Frame.tag).toList
  match result with
  | .ok wire => { net with
      wires := Function.update net.wires index wire
      sent := Function.update net.sent index (net.sent index ++ [packet])
      recorded := recorded }
  | .error _ => { net with recorded := recorded }

/-- A wire is handed a frame. -/
def afterReceive (frame : Frame Tag) : Network ι Tag :=
  match (net.wires index).receive codec hmac frame with
  | .ok (wire, packet) => { net with
      wires := Function.update net.wires index wire
      accepted := Function.update net.accepted index (net.accepted index ++ [packet]) }
  | .error _ => net

/-- `configure`: other limits. -/
def afterConfigure (valuesLimit : Nat) : Network ι Tag :=
  { net with
    wires := Function.update net.wires index { net.wires index with valuesLimit := valuesLimit } }

end

/-- The tags the adversary has: recorded ones, and whatever is no tag under a
key of the wires. -/
def Available (net : Network ι Tag) (tag : Tag) : Prop :=
  tag ∈ net.recorded ∨ ∀ index message, hmac (net.wires index).key message ≠ tag

/-- What can happen. The adversary hands any wire any body with a tag it has,
so frames are lost, repeated, reordered, reflected and spliced at will. -/
inductive Step : Network ι Tag → Network ι Tag → Prop
  | send (net index packet written) (built : packet.Built) :
      Step net (net.afterSend codec hmac index packet written)
  | deliver (net index frame) (available : net.Available hmac frame.tag) :
      Step net (net.afterReceive codec hmac index frame)
  | configure (net index valuesLimit) : Step net (net.afterConfigure index valuesLimit)

/-- Wires of all protocols before anything is sent. -/
def start (sha256 : List UInt8 → Digest) (keys : ι → List UInt8)
    (clients : ι → Bool) (limits : ι → Nat × Nat) (origins : ι → Origin) :
    Network ι Tag where
  wires := fun index => (origins index).wire sha256 (keys index)
    (clients index) (limits index).1 (limits index).2
  sent := fun _ => []
  accepted := fun _ => []
  recorded := []

end Network

end Joshua.Pipeline
