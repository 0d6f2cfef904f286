/-
Module: Joshua.Proofs.PipelineFrames
Purpose: The frames of a wire: what is sent is what the peer receives, and what
  is received has the form of what is sent, up to the spelling of the command.
Trusted boundary: none
-/
import Joshua.Model.PipelineWire

namespace Joshua.Pipeline
open Joshua.Foundation List

/-! ## Values -/

def valueBytes (values : List Float32Bits) : List UInt8 :=
  values.flatMap fun value => leBytes 4 value.toNat

lemma valueBytes_length (values : Values) : (valueBytes values).length = values.length * 4 := by
  rw [valueBytes, length_flatMap]
  simp

lemma readValues_valueBytes (values : Values) : readValues (valueBytes values) = values := by
  induction values with
  | nil => rfl
  | cons value rest ih =>
    have bits : UInt32.ofNat (leValue (leBytes 4 value.toNat)) = value := by
      rw [leValue_leBytes value.toNat_lt, UInt32.ofNat_toNat]
    have step : readValues (valueBytes (value :: rest)) =
        UInt32.ofNat (leValue (leBytes 4 value.toNat)) :: readValues (valueBytes rest) := rfl
    rw [step, bits, ih]

lemma valueBytes_readValues {bytes : Bytes}
    (whole : bytes.length % 4 = 0) : valueBytes (readValues bytes) = bytes := by
  induction bytes using readValues.induct with
  | case1 a b c d rest ih =>
    have bits : (UInt32.ofNat (leValue [a, b, c, d])).toNat = leValue [a, b, c, d] := by
      have small : leValue [a, b, c, d] < 256 ^ 4 := leValue_lt rfl
      rw [UInt32.toNat_ofNat']
      exact Nat.mod_eq_of_lt small
    have word : leBytes 4 (leValue [a, b, c, d]) = [a, b, c, d] := leBytes_leValue rfl
    simp only [length_cons] at whole
    have others := ih (by omega)
    rw [valueBytes] at others ⊢
    rw [readValues, flatMap_cons, bits, word, others]
    rfl
  | case2 bytes short =>
    match bytes with
    | [] => rfl
    | [_] | [_, _] | [_, _, _] => simp at whole
    | a :: b :: c :: d :: rest => exact absurd rfl (short a b c d rest)

/-! ## Bodies -/

variable {codec : Codec} {packet : Packet} {header body : Bytes}

/-- A body that has a packet in it, with its command spelled as `header`: a
chunk with bytes, or another command with values. -/
structure Spells (codec : Codec) (packet : Packet) (header body : List UInt8) : Prop where
  fits : header.length ≤ maxHeader
  decodes : codec.decode header = some packet.command
  body_eq : body = leBytes 4 header.length ++ header ++ valueBytes packet.values ++ packet.bytes
  shape : packet.command = .chunk ∧ packet.values = [] ∨ packet.command ≠ .chunk ∧ packet.bytes = []

/-- A packet within the limits of a wire. -/
structure Within (valuesLimit bytesLimit : Nat) (packet : Packet) : Prop where
  values : packet.values.length ≤ valuesLimit
  finite : packet.values.all Float32Bits.isFinite
  bytes : packet.bytes.length ≤ bytesLimit

namespace Spells

variable (spells : Spells codec packet header body)
include spells

lemma size : leValue (body.take 4) = header.length := by
  have small : header.length < 256 ^ 4 := lt_of_le_of_lt spells.fits (by decide)
  rw [spells.body_eq, append_assoc, append_assoc,
    take_left' (leBytes_length 4 _), leValue_leBytes small]

lemma header_eq : (body.drop 4).take header.length = header := by
  rw [spells.body_eq, append_assoc, append_assoc, drop_left' (leBytes_length 4 _), take_left]

lemma payload : body.drop (4 + header.length) = valueBytes packet.values ++ packet.bytes := by
  rw [spells.body_eq, append_assoc, drop_left']
  rw [length_append, leBytes_length]

lemma length : body.length =
    4 + header.length + packet.values.length * 4 + packet.bytes.length := by
  simp only [spells.body_eq, length_append, leBytes_length, valueBytes_length]

/-- A body tells its packet. -/
lemma unique {other : Packet} {header' : Bytes}
    (spells' : Spells codec other header' body) : other = packet := by
  have headers : header' = header := by
    rw [← spells.header_eq, ← spells'.header_eq, ← spells.size, spells'.size]
  subst headers
  have commands := spells.decodes.symm.trans spells'.decodes
  have payloads := spells.payload.symm.trans spells'.payload
  obtain ⟨command, values, bytes⟩ := packet
  obtain ⟨command', values', bytes'⟩ := other
  cases commands
  rcases spells.shape with ⟨chunk, rfl⟩ | ⟨noChunk, rfl⟩
  · rcases spells'.shape with ⟨_, rfl⟩ | ⟨noChunk, _⟩
    · exact congrArg _ (append_cancel_left payloads).symm
    · exact absurd chunk noChunk
  · rcases spells'.shape with ⟨chunk, _⟩ | ⟨_, rfl⟩
    · exact absurd chunk noChunk
    · simp only [append_nil] at payloads
      rw [← readValues_valueBytes values, payloads, readValues_valueBytes]

end Spells

/-- The bodies that are read. -/
lemma readBody_eq_ok {valuesLimit bytesLimit : Nat} (long : 4 ≤ body.length) :
    readBody codec valuesLimit bytesLimit body = .ok packet ↔
      (∃ header, Spells codec packet header body) ∧ Within valuesLimit bytesLimit packet := by
  constructor
  · intro read
    rw [readBody] at read
    split_ifs at read with sizes
    split at read
    next => cases read
    next command decodes =>
      -- the length, the header and the payload make up the body
      have four : (body.take 4).length = 4 := by
        rw [length_take]
        omega
      have size : ((body.drop 4).take (leValue (body.take 4))).length = leValue (body.take 4) := by
        rw [length_take, length_drop]
        omega
      have whole : body = leBytes 4 ((body.drop 4).take (leValue (body.take 4))).length ++
          (body.drop 4).take (leValue (body.take 4)) ++
          body.drop (4 + leValue (body.take 4)) := by
        rw [size, leBytes_leValue four, ← take_add, take_append_drop]
      rw [← size] at sizes
      dsimp only at read
      split_ifs at read with chunk long lengths finite
      · cases read
        refine ⟨⟨_, sizes.1, decodes, ?_, .inl ⟨chunk, rfl⟩⟩, Nat.zero_le _, rfl, not_lt.mp long⟩
        simpa [valueBytes] using whole
      · cases read
        have payload := valueBytes_readValues lengths.1
        refine ⟨⟨_, sizes.1, decodes, ?_, .inr ⟨chunk, rfl⟩⟩, ?_, finite, Nat.zero_le _⟩
        · rw [payload, append_nil]
          exact whole
        · have count := congrArg List.length payload
          rw [valueBytes_length] at count
          show (readValues _).length ≤ _
          omega
  · rintro ⟨⟨header, spells⟩, within⟩
    have length := spells.length
    rw [readBody, spells.size, if_neg (not_not.mpr ⟨spells.fits, by omega⟩)]
    simp only [spells.header_eq, spells.decodes, spells.payload]
    obtain ⟨command, values, bytes⟩ := packet
    rcases spells.shape with ⟨rfl, rfl⟩ | ⟨noChunk, rfl⟩
    · exact (if_pos rfl).trans (if_neg (not_lt.mpr within.bytes))
    · rw [if_neg noChunk, append_nil, valueBytes_length,
        if_neg (not_not.mpr ⟨by omega, by have := within.values; omega⟩),
        readValues_valueBytes, if_pos within.finite]

/-! ## Frames -/

/-- The other end of a connection. -/
@[mk_iff]
structure Wire.Peer (sender receiver : Wire) : Prop where
  protocol : sender.protocol = receiver.protocol
  job : sender.job = receiver.job
  rank : sender.rank = receiver.rank
  client : sender.client = !receiver.client

/-- The frames that are accepted. -/
lemma receive_eq_ok {Tag : Type} [DecidableEq Tag] {hmac : Bytes → Bytes → Tag}
    {wire after : Wire} {frame : Frame Tag} :
    wire.receive codec hmac frame = .ok (after, packet) ↔
      (4 ≤ frame.body.length ∧ frame.body.length ≤
        4 + maxHeader + max (wire.valuesLimit * 4) wire.bytesLimit) ∧
      wire.mac hmac (!wire.client) wire.rx frame.body = frame.tag ∧
      readBody codec wire.valuesLimit wire.bytesLimit frame.body = .ok packet ∧
      wire.rx.toNat + 1 < 2 ^ 64 ∧
      { wire with rx := wire.rx + 1 } = after := by
  rw [Wire.receive]
  cases readBody codec wire.valuesLimit wire.bytesLimit frame.body with
  | error => split_ifs <;> simp
  | ok found => split_ifs <;> grind

section Stream
variable {hmac : Bytes → Bytes → Digest} {wire after : Wire}
  {stream rest : Bytes} {frame : Frame Digest}

lemma tag_read (tag : Digest) :
    (Vector.ofFn fun place : Fin 32 => (tag.toList ++ rest).getD place 0) = tag := by
  refine Vector.ext fun place inside => ?_
  rw [Vector.getElem_ofFn, getD_eq_getElem?_getD,
    List.getElem?_append_left (by rwa [Vector.length_toList])]
  simp [inside]

lemma tag_written {bytes : Bytes} (long : 32 ≤ bytes.length) :
    (Vector.ofFn fun place : Fin 32 => bytes.getD place 0).toList = bytes.take 32 := by
  have size : min 32 bytes.length = 32 := min_eq_left long
  refine ext_getElem (by simp [size]) fun place inside _ => ?_
  rw [Vector.length_toList] at inside
  simp [getD_eq_getElem?_getD, List.getElem?_eq_getElem (lt_of_lt_of_le inside long)]

lemma receiveFrom_bytes (small : frame.body.length < 2 ^ 32)
    (accepted : wire.receive codec hmac frame = .ok (after, packet)) :
    wire.receiveFrom codec hmac (frame.bytes ++ rest) = .ok (after, packet, rest) := by
  obtain ⟨sizes, _⟩ := receive_eq_ok.mp accepted
  have four := leBytes_length 4 frame.body.length
  have split : frame.bytes ++ rest = leBytes 4 frame.body.length ++
      (frame.body ++ (frame.tag.toList ++ rest)) := by
    simp only [Frame.bytes, append_assoc]
  have length : leValue ((frame.bytes ++ rest).take 4) = frame.body.length := by
    rw [split, take_left' four]
    exact leValue_leBytes small
  have dropped : (frame.bytes ++ rest).drop 4 = frame.body ++ (frame.tag.toList ++ rest) := by
    rw [split, drop_left' four]
  rw [Wire.receiveFrom]
  simp only [length, dropped]
  rw [if_neg (by rw [split, length_append, four]; omega),
    if_neg (not_not.mpr sizes), if_neg, take_left, drop_left, tag_read, accepted]
  · simp only
    rw [← drop_drop, drop_left, drop_left' frame.tag.length_toList]
  · rw [length_append, length_append, Vector.length_toList]
    omega

lemma receiveFrom_eq_ok
    (accepted : wire.receiveFrom codec hmac stream = .ok (after, packet, rest)) :
    ∃ frame : Frame Digest, stream = frame.bytes ++ rest ∧
      wire.receive codec hmac frame = .ok (after, packet) := by
  rw [Wire.receiveFrom] at accepted
  dsimp only at accepted
  split_ifs at accepted with short sizes missing
  split at accepted
  next => cases accepted
  next after packet received =>
    cases accepted
    refine ⟨_, ?_, received⟩
    have four : (stream.take 4).length = 4 := by
      rw [length_take]
      omega
    have size : ((stream.drop 4).take (leValue (stream.take 4))).length =
        leValue (stream.take 4) := by
      rw [length_take]
      omega
    rw [Frame.bytes, tag_written (by rw [length_drop]; omega), size,
      leBytes_leValue four, append_assoc, append_assoc,
      ← drop_drop, take_append_drop, take_append_drop, take_append_drop]

end Stream

/-- The frame that leaves with a packet within the limits. -/
lemma send_eq_ok {Tag : Type} {hmac : Bytes → Bytes → Tag} {wire : Wire}
    (spells : Spells codec packet (codec.encode packet.command) body)
    (within : Within wire.valuesLimit wire.bytesLimit packet) (room : wire.tx.toNat + 1 < 2 ^ 64) :
    wire.send codec hmac packet true = (some ⟨body, wire.mac hmac wire.client wire.tx body⟩,
        .ok { wire with tx := wire.tx + 1 }) := by
  have encoded : encodeBody codec packet = body := spells.body_eq.symm
  have kinds : (packet.bytes = [] ∨ packet.command = .chunk) ∧
      (packet.values = [] ∨ packet.bytes = []) := by
    rcases spells.shape with ⟨chunk, empty⟩ | ⟨_, empty⟩
    · exact ⟨.inr chunk, .inl empty⟩
    · exact ⟨.inl empty, .inr empty⟩
  rw [Wire.send, if_neg (not_not.mpr ⟨within.values, within.finite⟩),
    if_neg (not_not.mpr ⟨within.bytes, kinds⟩),
    if_neg (not_lt.mpr spells.fits), if_neg (not_not.mpr rfl)]
  simp only [encoded, if_pos room]

/-- Between two ends of a connection with the same key, limits and place: a
packet that is a chunk with bytes or another command with values, within the
limits and with a command that is read as it is written, leaves in a frame from
which the peer reads that packet; and a frame from which a packet is read is
the one that would leave with it, up to the spelling of the command. -/
theorem frames_exact {hmac : List UInt8 → List UInt8 → Digest} {sender receiver : Wire}
    (key : sender.key = receiver.key) (peer : sender.Peer receiver)
    (place : sender.tx = receiver.rx) (valuesLimit : sender.valuesLimit = receiver.valuesLimit)
    (bytesLimit : sender.bytesLimit = receiver.bytesLimit)
    (small : 4 + maxHeader + max (receiver.valuesLimit * 4) receiver.bytesLimit < 2 ^ 32) :
    (∀ packet, packet.command = .chunk ∧ packet.values = [] ∨
        packet.command ≠ .chunk ∧ packet.bytes = [] →
      Within sender.valuesLimit sender.bytesLimit packet →
      (codec.encode packet.command).length ≤ maxHeader →
      codec.decode (codec.encode packet.command) = some packet.command →
      sender.tx.toNat + 1 < 2 ^ 64 →
      ∃ frame, sender.send codec hmac packet true =
          (some frame, .ok { sender with tx := sender.tx + 1 }) ∧
        ∀ rest, receiver.receiveFrom codec hmac (frame.bytes ++ rest) =
          .ok ({ receiver with rx := receiver.rx + 1 }, packet, rest)) ∧
    (∀ stream after packet rest,
      receiver.receiveFrom codec hmac stream = .ok (after, packet, rest) →
      ∃ header frame, stream = frame.bytes ++ rest ∧ Spells codec packet header frame.body ∧
        Within sender.valuesLimit sender.bytesLimit packet ∧
        frame.tag = sender.mac hmac sender.client sender.tx frame.body ∧
        (header = codec.encode packet.command → sender.send codec hmac packet true =
            (some frame, .ok { sender with tx := sender.tx + 1 }))) := by
  have macs : ∀ body, receiver.mac hmac (!receiver.client) receiver.rx body =
      sender.mac hmac sender.client sender.tx body := by
    intro body
    rw [Wire.mac, Wire.mac, key, peer.protocol, peer.job, peer.rank, peer.client, place]
  have limits : Within sender.valuesLimit sender.bytesLimit =
      Within receiver.valuesLimit receiver.bytesLimit := by
    rw [valuesLimit, bytesLimit]
  constructor
  · intro packet shape within fits decodes room
    have spells : Spells codec packet (codec.encode packet.command)
        (encodeBody codec packet) := ⟨fits, decodes, rfl, shape⟩
    have length := spells.length
    have sized : (encodeBody codec packet).length ≤ 4 + maxHeader +
        max (receiver.valuesLimit * 4) receiver.bytesLimit := by
      have values := within.values
      have bytes := within.bytes
      rw [valuesLimit] at values
      rw [bytesLimit] at bytes
      rcases shape with ⟨_, empty⟩ | ⟨_, empty⟩
      · rw [empty, length_nil] at length
        omega
      · rw [empty, length_nil] at length
        omega
    refine ⟨_, send_eq_ok spells within room, fun rest =>
      receiveFrom_bytes (lt_of_le_of_lt sized small) ?_⟩
    have long : 4 ≤ (encodeBody codec packet).length := by omega
    refine receive_eq_ok.mpr ⟨⟨long, sized⟩, macs _, ?_, by rwa [← place], rfl⟩
    exact (readBody_eq_ok long).mpr ⟨⟨_, spells⟩, limits ▸ within⟩
  · intro stream after packet rest accepted
    obtain ⟨frame, rfl, received⟩ := receiveFrom_eq_ok accepted
    obtain ⟨sizes, genuine, read, room, _⟩ := receive_eq_ok.mp received
    obtain ⟨⟨header, spells⟩, within⟩ := (readBody_eq_ok sizes.1).mp read
    rw [macs] at genuine
    rw [← limits] at within
    refine ⟨header, frame, rfl, spells, within, genuine.symm, ?_⟩
    rintro rfl
    rw [send_eq_ok spells within (by rwa [place]), genuine]

/-- The JSON form of the commands without fields. -/
def unitJson : Command → List UInt8
  | .stop => ascii "\"Stop\""
  | .probe => ascii "\"Probe\""
  | .chunk => ascii "\"Chunk\""
  | _ => []

/-- A codec that reads them with blanks around them. -/
def blankCodec : Codec where
  encode := unitJson
  decode header :=
    let trimmed := ((header.dropWhile (· = 32)).reverse.dropWhile (· = 32)).reverse
    [.stop, .probe, .chunk].find? fun command => unitJson command = trimmed

/-- The ends of a connection that carries slices. -/
def sliceWire (client : Bool) : Wire :=
  ⟨[], .agent, Vector.replicate 16 0, 0, client, 0, 0, 0, sliceChunk⟩

/-- The first bytes in the place of their tag. -/
def firstTag (_ bytes : List UInt8) : Digest :=
  Vector.ofFn fun index => bytes.getD index 0

/-- Three bytes of a slice. -/
theorem frames_exact_of_chunk :
    ∃ frame, (sliceWire true).send blankCodec firstTag ⟨.chunk, [], [7, 8, 9]⟩ true =
        (some frame, .ok { sliceWire true with tx := (sliceWire true).tx + 1 }) ∧
      ∀ rest, (sliceWire false).receiveFrom blankCodec firstTag
        (frame.bytes ++ rest) = .ok ({ sliceWire false with
          rx := (sliceWire false).rx + 1 }, ⟨.chunk, [], [7, 8, 9]⟩, rest) := by
  have exact_ := @frames_exact blankCodec firstTag (sliceWire true)
    (sliceWire false) rfl ⟨rfl, rfl, rfl, rfl⟩ rfl rfl rfl (by decide)
  exact exact_.1 ⟨.chunk, [], [7, 8, 9]⟩ (.inl ⟨rfl, rfl⟩)
    ⟨Nat.zero_le _, rfl, by decide⟩ (by decide +kernel) (by decide +kernel) (by decide +kernel)

/-- A frame with a blank behind the command is accepted, and it is not the one
that is sent. -/
theorem blank_accepted :
    let body := leBytes 4 7 ++ ascii "\"Stop\" "
    let frame : Frame Digest := ⟨body, (sliceWire true).mac firstTag true 0 body⟩
    (sliceWire false).receiveFrom blankCodec firstTag frame.bytes =
        .ok ({ sliceWire false with rx := 1 }, .control .stop, []) ∧
      ((sliceWire true).send blankCodec firstTag (.control .stop) true).1 ≠ some frame := by
  decide +kernel

end Joshua.Pipeline
