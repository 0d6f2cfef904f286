/-
Module: Joshua.Proofs.WireReplay
Purpose: What a wire accepts is a beginning of what its peer has sent, whatever
  an adversary does with the frames of all connections.
Trusted boundary: none
-/
import Joshua.Proofs.PipelineFrames

namespace Joshua.Pipeline
open Joshua.Foundation List
open Function (update update_self update_of_ne)

/-! ## The authenticated input -/

/-- No domain is the beginning of another one. -/
lemma domain_append_inj {first second : Protocol} {rest other : Bytes}
    (same : first.domain ++ rest = second.domain ++ other) : first = second ∧ rest = other := by
  -- the domains differ within their first fourteen bytes
  have short : ∀ protocol : Protocol, 14 ≤ protocol.domain.length := by
    intro protocol
    cases protocol <;> decide +kernel
  have heads : first.domain.take 14 = second.domain.take 14 := by
    have taken := congrArg (List.take 14) same
    rwa [take_append_of_le_length (short first), take_append_of_le_length (short second)] at taken
  have equal : first = second := by
    revert heads
    cases first <;> cases second <;> decide +kernel
  subst equal
  exact ⟨rfl, append_cancel_left same⟩

lemma u64_lt (value : UInt64) : value.toNat < 256 ^ 8 :=
  value.toNat_lt

/-- The authenticated input determines all its fields, although the domains
have different lengths. -/
lemma macInput_fields {protocol protocol' : Protocol} {job job' : Uuid} {rank rank' : UInt64}
    {client client' : Bool} {sequence sequence' : UInt64} {payload payload' : Bytes}
    (same : macInput protocol job rank client sequence payload =
      macInput protocol' job' rank' client' sequence' payload') :
    protocol = protocol' ∧ job = job' ∧ rank = rank' ∧ client = client' ∧
      sequence = sequence' ∧ payload = payload' := by
  simp only [macInput, append_assoc] at same
  obtain ⟨sameProtocol, same⟩ := domain_append_inj same
  obtain ⟨sameJob, same⟩ := append_inj same (by simp)
  obtain ⟨sameRank, same⟩ := append_inj same (by simp)
  obtain ⟨sameClient, same⟩ := append_inj same rfl
  obtain ⟨sameSequence, same⟩ := append_inj same (by simp)
  obtain ⟨_, samePayload⟩ := append_inj same (by simp)
  refine ⟨sameProtocol, Vector.toList_inj.mp sameJob,
    UInt64.toNat_inj.mp (leBytes_injective (u64_lt rank) (u64_lt rank') sameRank), ?_,
    UInt64.toNat_inj.mp (leBytes_injective (u64_lt sequence)
      (u64_lt sequence') sameSequence), samePayload⟩
  cases client <;> cases client' <;> simp_all

/-! ## Bodies -/

variable {codec : Codec}

/-- What a wire lets through. -/
structure Sendable (codec : Codec) (packet : Packet) : Prop where
  built : packet.Built
  header : (codec.encode packet.command).length ≤ maxHeader

lemma Packet.Built.shape {packet : Packet} (built : packet.Built) :
    packet.command = .chunk ∧ packet.values = [] ∨ packet.command ≠ .chunk ∧ packet.bytes = [] := by
  cases built with
  | control command =>
    by_cases chunk : command = .chunk
    · exact .inl ⟨chunk, rfl⟩
    · exact .inr ⟨chunk, rfl⟩
  | chunk bytes => exact .inl ⟨rfl, rfl⟩
  | _ => exact .inr ⟨by simp [Packet.withValues], rfl⟩

/-- A body that is read at all is read as the packet it was made of. -/
lemma readBody_encodeBody {packet found : Packet} {valuesLimit bytesLimit : Nat}
    (sendable : Sendable codec packet)
    (roundTrip : codec.decode (codec.encode packet.command) = some packet.command)
    (read : readBody codec valuesLimit bytesLimit (encodeBody codec packet) = .ok found) :
    found = packet := by
  have spells : Spells codec packet (codec.encode packet.command) (encodeBody codec packet) :=
    ⟨sendable.header, roundTrip, rfl, sendable.built.shape⟩
  have long : 4 ≤ (encodeBody codec packet).length := by
    rw [spells.length]
    omega
  obtain ⟨⟨header, others⟩, _⟩ := (readBody_eq_ok long).mp read
  exact spells.unique others

/-! ## One wire -/

/-- Two wires of the same end of the same connection. -/
structure Wire.SameEnd (wire other : Wire) : Prop where
  key : wire.key = other.key
  protocol : wire.protocol = other.protocol
  job : wire.job = other.job
  rank : wire.rank = other.rank
  client : wire.client = other.client

lemma Wire.SameEnd.mac {Tag : Type} {hmac : Bytes → Bytes → Tag} {wire other : Wire}
    (same : wire.SameEnd other) (client : Bool) (sequence : UInt64) (payload : Bytes) :
    wire.mac hmac client sequence payload = other.mac hmac client sequence payload := by
  rw [Wire.mac, Wire.mac, same.key, same.protocol, same.job, same.rank]

section Frames
variable {Tag : Type} {hmac : Bytes → Bytes → Tag}

/-- What `send` can do: nothing, send the next frame, or send a frame and find
the counter exhausted. -/
lemma send_cases (wire : Wire) (packet : Packet) (written : Bool) (built : packet.Built) :
    (∃ msg, wire.send codec hmac packet written = (none, .error msg)) ∨
    (Sendable codec packet ∧ wire.tx.toNat + 1 < 2 ^ 64 ∧
      wire.send codec hmac packet written = (some ⟨encodeBody codec packet,
          wire.mac hmac wire.client wire.tx (encodeBody codec packet)⟩,
          .ok { wire with tx := wire.tx + 1 })) ∨
    (Sendable codec packet ∧ wire.tx.toNat + 1 = 2 ^ 64 ∧
      ∃ msg, wire.send codec hmac packet written = (some ⟨encodeBody codec packet,
          wire.mac hmac wire.client wire.tx (encodeBody codec packet)⟩, .error msg)) := by
  rw [Wire.send]
  split_ifs with values bytes long sent room
  · exact .inl ⟨_, rfl⟩
  · exact .inr (.inl ⟨⟨built, not_lt.mp long⟩, room, rfl⟩)
  · have last : wire.tx.toNat + 1 = 2 ^ 64 := le_antisymm wire.tx.toNat_lt (not_lt.mp room)
    exact .inr (.inr ⟨⟨built, not_lt.mp long⟩, last, _, rfl⟩)
  all_goals exact .inl ⟨_, rfl⟩

end Frames

/-! ## The network -/

namespace Network

variable {ι Tag : Type} [DecidableEq ι] {hmac : Bytes → Bytes → Tag} {ends : ι → Wire}

/-- A tag that a wire has put on a frame: the packet has its place in what the
wire has sent, or the counter was at its last value. -/
structure Signed (codec : Codec) (hmac : List UInt8 → List UInt8 → Tag)
    (ends : ι → Wire) (sent : ι → List Packet) (tag : Tag) (index : ι)
    (packet : Packet) (sequence : UInt64) : Prop where
  sendable : Sendable codec packet
  tag_eq : (ends index).mac hmac (ends index).client sequence (encodeBody codec packet) = tag
  place : (sent index)[sequence.toNat]? = some packet ∨ sequence.toNat + 1 = 2 ^ 64

/-- A wire that has kept its end, with counters for what it has sent and
accepted. -/
structure Counted (fixed wire : Wire) (sent accepted : List Packet) : Prop where
  same : wire.SameEnd fixed
  tx : wire.tx.toNat = sent.length
  rx : wire.rx.toNat = accepted.length

/-- What holds at every moment, with the ends of all connections fixed. -/
structure Sound (codec : Codec) (hmac : List UInt8 → List UInt8 → Tag)
    (ends : ι → Wire) (net : Network ι Tag) : Prop where
  counted : ∀ index, Counted (ends index) (net.wires index) (net.sent index) (net.accepted index)
  signed : ∀ tag ∈ net.recorded, ∃ index packet sequence,
    Signed codec hmac ends net.sent tag index packet sequence
  received : ∀ index (place : Nat) packet, (net.accepted index)[place]? = some packet →
    ∃ sender original valuesLimit bytesLimit, (ends sender).Peer (ends index) ∧
      (net.sent sender)[place]? = some original ∧ Sendable codec original ∧
      readBody codec valuesLimit bytesLimit (encodeBody codec original) = .ok packet

lemma getElem?_append_some {α : Type} {items more : List α} {place : Nat} {item : α}
    (found : items[place]? = some item) : (items ++ more)[place]? = some item := by
  obtain ⟨inside, _⟩ := List.getElem?_eq_some_iff.mp found
  rw [List.getElem?_append_left inside, found]

variable {i : ι} {packet : Packet} {sent : ι → List Packet}

/-- What has been sent stays in its place. -/
lemma getElem?_update_sent {j : ι} {item : Packet} {place : Nat}
    (found : (sent j)[place]? = some item) :
    (update sent i (sent i ++ [packet]) j)[place]? = some item := by
  by_cases same : j = i
  · subst same
    rw [update_self]
    exact getElem?_append_some found
  · rw [update_of_ne same]
    exact found

lemma Signed.mono {tag : Tag} {owner : ι} {extra : Packet} {sequence : UInt64}
    (signed : Signed codec hmac ends sent tag owner packet sequence) : Signed codec hmac ends
      (update sent i (sent i ++ [extra])) tag owner packet
      sequence where
  sendable := signed.sendable
  tag_eq := signed.tag_eq
  place := signed.place.imp_left getElem?_update_sent

lemma toNat_succ {counter : UInt64} (room : counter.toNat + 1 < 2 ^ 64) :
    (counter + 1).toNat = counter.toNat + 1 := by
  rw [UInt64.toNat_add]
  exact Nat.mod_eq_of_lt room

variable {fixed wire : Wire} {sent accepted : List Packet}

lemma Counted.next_tx (counted : Counted fixed wire sent accepted) (packet : Packet)
    (room : wire.tx.toNat + 1 < 2 ^ 64) :
    Counted fixed { wire with tx := wire.tx + 1 } (sent ++ [packet]) accepted where
  same := { counted.same with }
  tx := by
    rw [toNat_succ room, counted.tx, length_append, length_singleton]
  rx := counted.rx

lemma Counted.next_rx (counted : Counted fixed wire sent accepted) (packet : Packet)
    (room : wire.rx.toNat + 1 < 2 ^ 64) :
    Counted fixed { wire with rx := wire.rx + 1 } sent (accepted ++ [packet]) where
  same := { counted.same with }
  tx := counted.tx
  rx := by
    rw [toNat_succ room, counted.rx, length_append, length_singleton]

variable {net : Network ι Tag}

/-- Sending keeps what holds. -/
lemma Sound.afterSend (sound : Sound codec hmac ends net) (i : ι) (written : Bool)
    (built : packet.Built) :
    Sound codec hmac ends (net.afterSend codec hmac i packet written) := by
  have counted := sound.counted i
  have own : (ends i).mac hmac (ends i).client (net.wires i).tx
      (encodeBody codec packet) = (net.wires i).mac hmac (net.wires i).client
          (net.wires i).tx (encodeBody codec packet) := by
    rw [← counted.same.client, counted.same.mac]
  rw [Network.afterSend]
  rcases send_cases (net.wires i) packet written built with
    ⟨msg, nothing⟩ | ⟨sendable, room, sends⟩ | ⟨sendable, last, msg, sends⟩
  · rw [nothing]
    simpa using sound
  · rw [sends]
    refine ⟨fun j => ?_, forall_mem_append.mpr ⟨fun tag old => ?_, forall_mem_singleton.mpr
      ⟨i, packet, (net.wires i).tx, sendable, own, .inl (by simp [counted.tx])⟩⟩,
      fun j place found inside => ?_⟩
    · by_cases self : j = i
      · subst self
        simpa using counted.next_tx packet room
      · simpa [self] using sound.counted j
    · obtain ⟨owner, item, sequence, signed⟩ := sound.signed tag old
      exact ⟨owner, item, sequence, signed.mono⟩
    · obtain ⟨sender, original, values, bytes, peer, sent, rest⟩ :=
        sound.received j place found inside
      exact ⟨sender, original, values, bytes, peer, getElem?_update_sent sent, rest⟩
  · rw [sends]
    exact ⟨sound.counted, forall_mem_append.mpr ⟨sound.signed, forall_mem_singleton.mpr
      ⟨i, packet, (net.wires i).tx, sendable, own, .inr last⟩⟩, sound.received⟩

section
variable {frame : Frame Tag}
  (injective : ∀ key msg key' message', hmac key msg = hmac key' message' → msg = message')
include injective

omit [DecidableEq ι] in
/-- A genuine tag at the receiver's place is the one its peer has put on the
packet in that place. -/
lemma Sound.sender {net : Network ι Tag} (sound : Sound codec hmac ends net)
    (available : net.Available hmac frame.tag)
    (genuine : (net.wires i).mac hmac (!(net.wires i).client) (net.wires i).rx frame.body =
      frame.tag)
    (room : (net.wires i).rx.toNat + 1 < 2 ^ 64) :
    ∃ sender original, (ends sender).Peer (ends i) ∧
      (net.sent sender)[(net.wires i).rx.toNat]? = some original ∧
      Sendable codec original ∧ encodeBody codec original = frame.body := by
  rcases available with recorded | foreign
  · obtain ⟨sender, original, sequence, signed⟩ := sound.signed _ recorded
    have inputs := injective _ _ _ _ (signed.tag_eq.trans genuine.symm)
    obtain ⟨protocol, job, rank, client, rfl, body⟩ := macInput_fields inputs
    have self := (sound.counted i).same
    refine ⟨sender, original, ⟨protocol.trans self.protocol,
      job.trans self.job, rank.trans self.rank, ?_⟩, ?_, signed.sendable, body⟩
    · rw [client, self.client]
    · exact signed.place.resolve_right (Nat.ne_of_lt room)
  · exact absurd genuine (foreign i _)

omit injective in
/-- Other limits change no end and no counter. -/
lemma Sound.afterConfigure (sound : Sound codec hmac ends net) (i : ι) (valuesLimit : Nat) :
    Sound codec hmac ends (net.afterConfigure i valuesLimit) := by
  refine ⟨fun j => ?_, sound.signed, sound.received⟩
  by_cases self : j = i
  · subst self
    have counted := sound.counted j
    simp only [Network.afterConfigure, update_self]
    exact ⟨⟨counted.same.key, counted.same.protocol, counted.same.job,
      counted.same.rank, counted.same.client⟩, counted.tx, counted.rx⟩
  · simp only [Network.afterConfigure, update_of_ne self]
    exact sound.counted j

variable [DecidableEq Tag]

/-- Receiving keeps what holds. -/
lemma Sound.afterReceive (sound : Sound codec hmac ends net) (i : ι)
    (available : net.Available hmac frame.tag) :
    Sound codec hmac ends (net.afterReceive codec hmac i frame) := by
  rw [Network.afterReceive]
  split
  next after packet accepted =>
    have counted := sound.counted i
    obtain ⟨_, genuine, read, room, rfl⟩ := receive_eq_ok.mp accepted
    obtain ⟨sender, original, peer, sent, sendable, body⟩ :=
      sound.sender injective available genuine room
    refine ⟨fun j => ?_, sound.signed, fun j place found inside => ?_⟩
    · by_cases self : j = i
      · subst self
        simpa using counted.next_rx packet room
      · simpa [self] using sound.counted j
    · by_cases self : j = i
      · subst self
        simp only [update_self] at inside
        rcases lt_or_ge place (net.accepted j).length with old | new
        · rw [List.getElem?_append_left old] at inside
          exact sound.received j place found inside
        · obtain ⟨size, _⟩ := List.getElem?_eq_some_iff.mp inside
          rw [length_append, length_singleton] at size
          obtain rfl : place = (net.accepted j).length := by omega
          rw [List.getElem?_concat_length] at inside
          cases inside
          rw [counted.rx] at sent
          rw [← body] at read
          exact ⟨sender, original, _, _, peer, sent, sendable, read⟩
      · simp only [update_of_ne self] at inside
        exact sound.received j place found inside
  next => exact sound

lemma Step.sound {net next : Network ι Tag} (step : Step codec hmac net next)
    (sound : Sound codec hmac ends net) : Sound codec hmac ends next := by
  cases step with
  | send i packet written built => exact sound.afterSend i written built
  | deliver i frame available => exact sound.afterReceive injective i available
  | configure i valuesLimit => exact sound.afterConfigure i valuesLimit

variable {sha256 : Bytes → Digest}

/-- Every run from fresh wires is sound. -/
lemma run_sound {keys : ι → Bytes} {clients : ι → Bool} {limits : ι → Nat × Nat}
    {origins : ι → Origin}
    (run : Relation.ReflTransGen (Step codec hmac) (start sha256 keys clients limits origins) net) :
    Sound codec hmac (fun i => (origins i).wire sha256 (keys i)
      (clients i) (limits i).1 (limits i).2) net := by
  induction run with
  | refl =>
    exact ⟨fun i => ⟨⟨rfl, rfl, rfl, rfl, rfl⟩, rfl, rfl⟩,
      nofun, fun i place packet found => by cases found⟩
  | tail _ step ih => exact step.sound injective ih

end

variable [DecidableEq Tag] {sha256 : Bytes → Digest}

/-! ## Fresh connections -/

omit [DecidableEq ι] [DecidableEq Tag] in
/-- Ends of one direction that have the same job and rank have the same own
nonce, as long as no two sessions of controllers collide. -/
lemma ownNonce_eq {first second : Origin} {client : Bool}
    (collisionFree : ∀ worker controller worker' controller',
      first = .agent worker controller → second = .agent worker' controller' →
      sessionId sha256 worker controller = sessionId sha256 worker' controller' →
      sessionInput worker controller = sessionInput worker' controller')
    (protocol : first.protocol = second.protocol) (job : first.job sha256 = second.job sha256)
    (rank : first.rank = second.rank) : first.ownNonce client = second.ownNonce client := by
  cases first with
  | pipeline =>
    cases second with
    | pipeline => exact Prod.ext job rank
    | _ => cases protocol
  | expert =>
    cases second with
    | expert => exact Prod.ext job rank
    | _ => cases protocol
  | agent worker controller =>
    cases second with
    | agent worker' controller' =>
      have inputs := collisionFree _ _ _ _ rfl rfl job
      simp only [sessionInput, append_assoc] at inputs
      obtain ⟨workers, controllers⟩ := append_inj (append_cancel_left inputs) (by simp)
      rw [Vector.toList_inj.mp workers, Vector.toList_inj.mp controllers]
    | _ => cases protocol

/-- The sequence of packets that a wire accepts is a beginning of the sequence
that its peer has sent under the same protocol, job, rank and direction,
whatever the adversary has done with the frames of all connections. HMAC is
unforgeable (`Available`) and injective, a job is used by one connection for
each rank, and each side of a controller's connection has a nonce of its
own. -/
theorem accepted_is_beginning (sha256 : List UInt8 → Digest) (keys : ι → List UInt8)
    (clients : ι → Bool) (limits : ι → Nat × Nat) (origins : ι → Origin) (net : Network ι Tag)
    (injective : ∀ key message key' message',
      hmac key message = hmac key' message' → message = message')
    (run : Relation.ReflTransGen (Step codec hmac) (start sha256 keys clients limits origins) net)
    (roundTrip : ∀ index, ∀ packet ∈ net.sent index,
      codec.decode (codec.encode packet.command) = some packet.command)
    (collisionFree : ∀ index other worker controller worker' controller',
      origins index = .agent worker controller →
      origins other = .agent worker' controller' →
      sessionId sha256 worker controller = sessionId sha256 worker' controller' →
      sessionInput worker controller = sessionInput worker' controller')
    (fresh : ∀ index other, net.sent index ≠ [] → net.sent other ≠ [] →
      clients index = clients other →
      (origins index).protocol = (origins other).protocol →
      (origins index).ownNonce (clients index) =
        (origins other).ownNonce (clients other) → index = other) :
    (∀ receiver, net.accepted receiver ≠ [] → ∃ sender,
      (net.wires sender).Peer (net.wires receiver) ∧ net.sent sender ≠ []) ∧
    (∀ receiver sender, (net.wires sender).Peer (net.wires receiver) →
      net.sent sender ≠ [] → net.accepted receiver <+: net.sent sender) ∧
    Function.Injective fun fields : Protocol × Uuid × UInt64 × Bool × UInt64 × List UInt8 =>
      macInput fields.1 fields.2.1 fields.2.2.1 fields.2.2.2.1
        fields.2.2.2.2.1 fields.2.2.2.2.2 := by
  have sound := run_sound injective run
  have ends : ∀ {sender receiver : ι}, (net.wires sender).Peer (net.wires receiver) ↔
      ((origins sender).wire sha256 (keys sender) (clients sender)
          (limits sender).1 (limits sender).2).Peer
        ((origins receiver).wire sha256 (keys receiver) (clients receiver)
          (limits receiver).1 (limits receiver).2) := by
    intro sender receiver
    have one := (sound.counted sender).same
    have two := (sound.counted receiver).same
    rw [Wire.peer_iff, Wire.peer_iff, one.protocol, two.protocol, one.job, two.job,
      one.rank, two.rank, one.client, two.client]
  refine ⟨fun receiver accepts => ?_, fun receiver sender peer sends => ?_, ?_⟩
  · obtain ⟨packet, rest, first⟩ := exists_cons_of_ne_nil accepts
    obtain ⟨sender, original, _, _, peer, sent, _⟩ :=
      sound.received receiver 0 packet (by rw [first]; rfl)
    refine ⟨sender, ends.mpr peer, fun silent => ?_⟩
    rw [silent] at sent
    cases sent
  · rw [prefix_iff_getElem?]
    intro place inside
    obtain ⟨other, original, _, _, otherPeer, sent, sendable, read⟩ :=
      sound.received receiver place _ (List.getElem?_eq_getElem inside)
    obtain rfl : other = sender := by
      have peer := ends.mp peer
      refine fresh other sender (fun silent => ?_) sends ?_ ?_ ?_
      · rw [silent] at sent
        cases sent
      · exact otherPeer.client.trans peer.client.symm
      · exact otherPeer.protocol.trans peer.protocol.symm
      · have client : clients other = clients sender := otherPeer.client.trans peer.client.symm
        rw [client]
        exact ownNonce_eq (collisionFree other sender) (otherPeer.protocol.trans peer.protocol.symm)
          (otherPeer.job.trans peer.job.symm)
          (otherPeer.rank.trans peer.rank.symm)
    rw [sent, readBody_encodeBody sendable (roundTrip other original (mem_of_getElem? sent)) read]
  · rintro ⟨protocol, job, rank, client, sequence, payload⟩
      ⟨protocol', job', rank', client', sequence', payload'⟩ same
    obtain ⟨rfl, rfl, rfl, rfl, rfl, rfl⟩ := macInput_fields same
    rfl

/-- Two wires of one connection between a controller and a worker. -/
def agentPair : Network Bool (List UInt8 × List UInt8) :=
  start (fun _ => Vector.replicate 32 0) (fun _ => []) (fun side => side) (fun _ => (0, 0))
    fun _ => .agent (Vector.replicate 16 1) (Vector.replicate 16 2)

/-- The controller asks for the capacity and sends a byte of a slice; of its
frames the first comes twice and goes back to the controller, then the second
comes. HMAC is the pair of its arguments. -/
theorem accepted_is_beginning_of_replay :
    let sent := (agentPair.afterSend blankCodec Prod.mk true (.control .probe) true).afterSend
      blankCodec Prod.mk true ⟨.chunk, [], [7]⟩ true
    let frame (place : UInt64) (body : List UInt8) : Frame (List UInt8 × List UInt8) :=
      ⟨body, [], macInput .agent (Vector.replicate 16 0) 0 true place body⟩
    let probe := frame 0 (encodeBody blankCodec (.control .probe))
    let once := sent.afterReceive blankCodec Prod.mk false probe
    let twice := once.afterReceive blankCodec Prod.mk false probe
    let back := twice.afterReceive blankCodec Prod.mk true probe
    let net := back.afterReceive blankCodec Prod.mk false
      (frame 1 (encodeBody blankCodec ⟨.chunk, [], [7]⟩))
    net.accepted true = [] ∧ net.accepted false = [.control .probe, ⟨.chunk, [], [7]⟩] ∧
      net.accepted false <+: net.sent true := by
  intro sent frame probe once twice back net
  have run : Relation.ReflTransGen (Step blankCodec Prod.mk) agentPair net := by
    refine .tail (.tail (.tail (.tail (.tail (.tail .refl (.send _ true _ true (.control .probe)))
      (.send _ true _ true (.chunk [7]))) (.deliver sent false _ (.inl ?_)))
      (.deliver once false _ (.inl ?_))) (.deliver twice true _ (.inl ?_)))
      (.deliver back false _ (.inl ?_)) <;> decide +kernel
  have whole := accepted_is_beginning (fun _ => Vector.replicate 32 0)
    (fun _ => []) (fun side : Bool => side) (fun _ => (0, 0))
    (fun _ => .agent (Vector.replicate 16 1) (Vector.replicate 16 2)) net
    (fun _ _ _ _ same => congrArg Prod.snd same) run
    (by decide +kernel) (by rintro _ _ _ _ _ _ ⟨⟩ ⟨⟩ _; rfl)
    (by decide +kernel)
  refine ⟨by decide +kernel, by decide +kernel, whole.2.1 false true ?_ (by decide +kernel)⟩
  constructor <;> decide +kernel

end Network

end Joshua.Pipeline
