/-
Module: Joshua.Proofs.TcpRingCommit
Purpose: The bytes of the ring's frames determine their fields. A rank that
  returns from a call knows that every rank of the ring has done its data
  exchange in the same step; a rank whose call fails keeps its values and
  never calls again.
Trusted boundary: none
-/
import Joshua.Foundation.Collections
import Joshua.Model.TcpRing
import Mathlib.Data.Nat.ModEq

namespace Joshua.TcpRing
open Joshua.Foundation List

/-! ## Members -/

/-- An address tells where it ends. -/
lemma address_append_inj {first second : Address} {rest others : Bytes}
    (same : first.bytes ++ rest = second.bytes ++ others) : first = second ∧ rest = others := by
  have small : ∀ port : UInt16, port.toNat < 256 ^ 2 := fun port => port.toNat_lt
  have wide : ∀ word : UInt32, word.toNat < 256 ^ 4 := fun word => word.toNat_lt
  cases first with
  | v4 octets port =>
    cases second with
    | v4 octets' port' =>
      simp only [Address.bytes, cons_append, List.cons.injEq, true_and, append_assoc] at same
      obtain ⟨sameOctets, same⟩ := append_inj same (by simp)
      obtain ⟨samePort, same⟩ := append_inj same (by simp)
      have ports := beBytes_injective (small port) (small port') samePort
      rw [Vector.toList_inj.mp sameOctets, UInt16.toNat_inj.mp ports]
      exact ⟨rfl, same⟩
    | v6 => cases same
  | v6 octets port flowinfo scopeId =>
    cases second with
    | v4 => cases same
    | v6 octets' port' flowinfo' scopeId' =>
      simp only [Address.bytes, cons_append, List.cons.injEq, true_and, append_assoc] at same
      obtain ⟨sameOctets, same⟩ := append_inj same (by simp)
      obtain ⟨samePort, same⟩ := append_inj same (by simp)
      obtain ⟨sameFlow, same⟩ := append_inj same (by simp)
      obtain ⟨sameScope, same⟩ := append_inj same (by simp)
      have ports := beBytes_injective (small port) (small port') samePort
      have flows := beBytes_injective (wide flowinfo) (wide flowinfo') sameFlow
      have scopes := beBytes_injective (wide scopeId) (wide scopeId') sameScope
      rw [Vector.toList_inj.mp sameOctets, UInt16.toNat_inj.mp ports,
        UInt32.toNat_inj.mp flows, UInt32.toNat_inj.mp scopes]
      exact ⟨rfl, same⟩

variable {first second : List Address}

lemma addresses_injective (same : first.flatMap Address.bytes = second.flatMap Address.bytes) :
    first = second := by
  have filled : ∀ address : Address, address.bytes ≠ [] := by
    intro address
    cases address <;> simp [Address.bytes]
  induction first generalizing second with
  | nil =>
    cases second with
    | nil => rfl
    | cons address rest =>
      rw [flatMap_nil, flatMap_cons] at same
      exact absurd (append_eq_nil_iff.mp same.symm).1 (filled address)
  | cons address rest ih =>
    cases second with
    | nil =>
      rw [flatMap_nil, flatMap_cons] at same
      exact absurd (append_eq_nil_iff.mp same).1 (filled address)
    | cons j others =>
      rw [flatMap_cons, flatMap_cons] at same
      obtain ⟨rfl, tails⟩ := address_append_inj same
      rw [ih tails]

/-- What is hashed for a membership tells its members. -/
lemma membershipInput_injective (same : membershipInput first = membershipInput second) :
    first = second := by
  simp only [membershipInput, append_assoc] at same
  obtain ⟨_, addresses⟩ := append_inj (append_cancel_left same) (by simp)
  exact addresses_injective addresses

/-! ## Headers -/

lemma magic_length : magic.length = 8 := by
  decide +kernel

variable {other : Group}

section Frames
variable {sha256 : Bytes → Digest} {hmac : Bytes → Bytes → Digest}

lemma header_length (group : Group) (frame : Frame) :
    (group.header sha256 frame).length = headerLength := by
  simp [Group.header, magic_length, headerLength]

/-- The numbers of a frame fit into their fields. -/
structure Frame.Fits (frame : Frame) : Prop where
  rank : frame.rank < 256 ^ 4
  total : frame.total < 256 ^ 4
  round : frame.round < 256 ^ 4
  origin : frame.origin < 256 ^ 4
  chunk : frame.chunk < 256 ^ 4

lemma Kind.code_injective {first second : Kind}
    (same : beBytes 4 first.code = beBytes 4 second.code) : first = second := by
  revert same
  cases first <;> cases second <;> decide +kernel

variable {values : Values} {group : Group}

/-- A header tells the session, the members, the step and the frame. -/
lemma header_injective {frame frame' : Frame} (fits : frame.Fits) (fits' : frame'.Fits)
    (same : group.header sha256 frame = other.header sha256 frame') :
    group.session = other.session ∧ group.membership sha256 = other.membership sha256 ∧
      group.step = other.step ∧ frame = frame' := by
  simp only [Group.header, append_assoc] at same
  have same := append_cancel_left same
  obtain ⟨session, same⟩ := append_inj same (by simp)
  obtain ⟨membership, same⟩ := append_inj same (by simp)
  obtain ⟨step, same⟩ := append_inj same (by simp)
  obtain ⟨rank, same⟩ := append_inj same (by simp)
  obtain ⟨total, same⟩ := append_inj same (by simp)
  obtain ⟨round, same⟩ := append_inj same (by simp)
  obtain ⟨origin, same⟩ := append_inj same (by simp)
  obtain ⟨chunk, kind⟩ := append_inj same (by simp)
  have wide : ∀ word : UInt64, word.toNat < 256 ^ 8 := fun word => word.toNat_lt
  refine ⟨Vector.toList_inj.mp session, Vector.toList_inj.mp membership,
    UInt64.toNat_inj.mp (beBytes_injective (wide _) (wide _) step), ?_⟩
  obtain ⟨kindA, rankA, totalA, roundA, originA, chunkA⟩ := frame
  obtain ⟨kindB, rankB, totalB, roundB, originB, chunkB⟩ := frame'
  rw [Frame.mk.injEq]
  exact ⟨Kind.code_injective kind, beBytes_injective fits.rank fits'.rank rank,
    beBytes_injective fits.total fits'.total total, beBytes_injective fits.round fits'.round round,
    beBytes_injective fits.origin fits'.origin origin,
    beBytes_injective fits.chunk fits'.chunk chunk⟩

/-! ## Frames -/

section
variable (few : values.length ≤ chunkElements)
include few

lemma payload_length : (payload values).length = chunkElements * 4 := by
  rw [payload, length_append, wordBytes_length, length_replicate]
  omega

variable {frame expected : Frame}

lemma body_length : (group.body sha256 frame values).length = bodyLength := by
  rw [Group.body, length_append, header_length, payload_length few]
  rfl

/-- The authenticated part of an encoded frame. -/
lemma take_encode :
    (group.encode sha256 hmac frame values).take bodyLength = group.body sha256 frame values := by
  rw [Group.encode, take_left' (body_length few)]

omit few in
/-- What a frame that is accepted has passed. -/
lemma decode_eq_ok {bytes : Bytes} {count : Nat} :
    group.decode sha256 hmac bytes expected count = .ok values ↔ bytes.length = frameLength ∧
      (hmac group.psk (bytes.take bodyLength)).toList = bytes.drop bodyLength ∧
      bytes.take headerLength = group.header sha256 expected ∧
      (∀ byte ∈ (bytes.take bodyLength).drop (headerLength + count * 4), byte = 0) ∧
      readWords count (bytes.drop headerLength) = values := by
  rw [Group.decode]
  split_ifs <;> simp_all
  exact fun _ => ‹_›

/-- A frame from a member is read as it was written, where its header is the
expected one. -/
lemma decode_encode (psk : other.psk = group.psk)
    (header : other.header sha256 frame = group.header sha256 expected) :
    group.decode sha256 hmac (other.encode sha256 hmac frame values) expected
      values.length = .ok values := by
  rw [decode_eq_ok, take_encode few]
  refine ⟨?_, ?_, ?_, ?_, ?_⟩
  · rw [Group.encode, length_append, body_length few, Vector.length_toList]
    rfl
  · rw [Group.encode, drop_left' (body_length few), psk]
  · rw [Group.encode, Group.body, append_assoc, take_left' (header_length other frame), header]
  · intro byte inside
    rw [Group.body, drop_append, header_length,
      drop_eq_nil_of_le (by rw [header_length]; omega), nil_append,
      Nat.add_sub_cancel_left, payload, drop_left' (wordBytes_length values)] at inside
    exact eq_of_mem_replicate inside
  · rw [Group.encode, Group.body, append_assoc, drop_left' (header_length other frame), payload,
      append_assoc, readWords_wordBytes]

end

/-- The frames that are accepted are those that are written for the expected
frame, with values where values are expected and zeros behind them. -/
theorem decode_accepts_iff (group : Group) (expected : Frame) {count : Nat}
    (few : count ≤ chunkElements) (bytes : List UInt8) (values : List Float32Bits) :
    group.decode sha256 hmac bytes expected count = .ok values ↔ values.length = count ∧
        bytes = group.encode sha256 hmac expected values := by
  constructor
  · intro accepted
    obtain ⟨size, tag, header, padding, rfl⟩ := decode_eq_ok.mp accepted
    have long : headerLength + chunkElements * 4 + 32 = bytes.length := size.symm
    have words : wordBytes (readWords count (bytes.drop headerLength)) =
        (bytes.drop headerLength).take (count * 4) :=
      wordBytes_readWords (by rw [length_drop]; omega)
    have zeros : (bytes.take bodyLength).drop (headerLength + count * 4) =
        List.replicate (chunkElements * 4 - count * 4) 0 := by
      refine eq_replicate_iff.mpr ⟨?_, padding⟩
      rw [length_drop, length_take, bodyLength]
      omega
    have front : headerLength + count * 4 ≤ bodyLength := by
      rw [bodyLength]
      omega
    have body : group.body sha256 expected
        (readWords count (bytes.drop headerLength)) = bytes.take bodyLength := by
      rw [Group.body, payload, words, readWords_length, ← header, ← zeros,
        ← append_assoc, ← take_add, ← min_eq_left front,
        ← take_take, min_eq_left front, take_append_drop]
    refine ⟨readWords_length _ _, ?_⟩
    rw [Group.encode, body, tag, take_append_drop]
  · rintro ⟨rfl, rfl⟩
    exact decode_encode few rfl rfl

/-- A ring of one rank. -/
def single : Group where
  peers := [.v4 (Vector.replicate 4 1) 1]
  rank := 0
  session := Vector.replicate 16 0
  psk := []
  step := 0
  poisoned := false
  few := by decide
  member := by decide

/-- A frame of that ring with one value. -/
theorem decode_accepts_iff_of_single :
    let digest := fun _ : List UInt8 => (Vector.replicate 32 0 : Digest)
    let frame : Frame := ⟨.data, 0, 1, 0, 0, 0⟩
    single.decode digest (fun _ => digest)
      (single.encode digest (fun _ => digest) frame [7]) frame 1 = .ok [7] :=
  (decode_accepts_iff single _ (by decide) _ _).mpr ⟨rfl, rfl⟩

end Frames

/-! ## The order of the transfers -/

section
variable (peers total : Nat)

/-- The transfers before the first completion token. -/
def dataEnd : Nat :=
  if peers = 1 then 0 else 1 + (peers - 1) * chunkCount total

lemma slots_length : (slots peers total).length = dataEnd peers total + (peers - 1) := by
  rw [slots, dataEnd]
  split
  next single => simp [single]
  next =>
    simp [length_flatMap]
    omega

lemma slots_nodup : (slots peers total).Nodup := by
  rw [slots]
  split
  next => exact nodup_nil
  next =>
    have rounds : ((List.range (peers - 1)).flatMap fun round =>
        (List.range (chunkCount total)).map fun chunk => Slot.data round chunk).Nodup := by
      refine nodup_flatMap.mpr ⟨fun round _ => ?_, ?_⟩
      · exact nodup_range.map fun _ _ same => (Slot.data.inj same).2
      · refine nodup_range.imp fun {first second} differ => ?_
        intro slot inFirst inSecond
        obtain ⟨_, _, rfl⟩ := mem_map.mp inFirst
        obtain ⟨_, _, same⟩ := mem_map.mp inSecond
        cases same
        exact differ rfl
    have tokens : ((List.range (peers - 1)).map Slot.ready).Nodup :=
      nodup_range.map fun _ _ => Slot.ready.inj
    refine nodup_append.mpr ⟨nodup_cons.mpr ⟨by simp, rounds⟩, tokens,
      forall_mem_cons.mpr ⟨by simp, fun slot inside => ?_⟩⟩
    obtain ⟨_, _, inside⟩ := mem_flatMap.mp inside
    obtain ⟨_, _, rfl⟩ := mem_map.mp inside
    simp

end

/-- Which transfers a call has. -/
lemma mem_slots {peers total : Nat} {slot : Slot} (inside : slot ∈ slots peers total) :
    peers ≠ 1 ∧ match slot with
    | .hello => True
    | .data round chunk => round < peers - 1 ∧ chunk < chunkCount total
    | .ready round => round < peers - 1 := by
  rw [slots] at inside
  split at inside
  next => cases inside
  next several =>
    refine ⟨several, ?_⟩
    rcases mem_append.mp inside with early | late
    · rcases mem_cons.mp early with rfl | inside
      · trivial
      · obtain ⟨round, round_lt, inside⟩ := mem_flatMap.mp inside
        obtain ⟨chunk, chunk_lt, rfl⟩ := mem_map.mp inside
        exact ⟨mem_range.mp round_lt, mem_range.mp chunk_lt⟩
    · obtain ⟨round, round_lt, rfl⟩ := mem_map.mp late
      exact mem_range.mp round_lt

lemma slotLength_le (total : Nat) (slot : Slot) : slotLength total slot ≤ chunkElements := by
  cases slot with
  | data => exact min_le_right _ _
  | hello | ready => exact Nat.zero_le _

lemma chunkCount_le {total : Nat} (small : total ≤ maxTensorElements) : chunkCount total ≤ 256 := by
  rw [chunkCount]
  have bound : total + chunkElements - 1 < 257 * chunkElements := by
    simp only [maxTensorElements, chunkElements] at small ⊢
    omega
  exact Nat.lt_succ_iff.mp (Nat.div_lt_of_lt_mul (by rwa [mul_comm]))

section Bounds
variable {group : Group} {total : Nat} {slot : Slot}

lemma Group.positive (group : Group) : 0 < group.peers.length :=
  Nat.zero_lt_of_lt group.member

/-- A number below the number of ranks fits into a field. -/
lemma fits_of_lt_peers {number : Nat} (below : number < group.peers.length) : number < 256 ^ 4 :=
  lt_of_lt_of_le below (le_trans group.few (by decide))

lemma fits_of_total (small : total ≤ maxTensorElements) : total < 256 ^ 4 :=
  lt_of_le_of_lt small (by decide)

lemma fits_of_chunk {chunk : Nat} (small : total ≤ maxTensorElements)
    (inside : chunk < chunkCount total) : chunk < 256 ^ 4 :=
  lt_of_lt_of_le inside (le_trans (chunkCount_le small) (by decide))

/-- The frames of a transfer, of the rank that sends and of the one that waits
for it. -/
lemma frames_fit (small : total ≤ maxTensorElements)
    (inside : slot ∈ slots group.peers.length total) :
    (group.sendFrame total slot).Fits ∧ (group.receiveFrame total slot).Fits := by
  have bounds := (mem_slots inside).2
  have own := fits_of_lt_peers group.member
  -- the predecessor and the origins are remainders
  have wraps := fun number => fits_of_lt_peers (Nat.mod_lt number group.positive)
  have size := fits_of_total small
  have empty : 0 < 256 ^ 4 := by decide
  cases slot with
  | hello => exact ⟨⟨own, size, empty, own, empty⟩, wraps _, size, empty, wraps _, empty⟩
  | data round chunk =>
    have turn := fits_of_lt_peers (Nat.lt_of_lt_pred bounds.1)
    have place := fits_of_chunk small bounds.2
    exact ⟨⟨own, size, turn, wraps _, place⟩, wraps _, size, turn, wraps _, place⟩
  | ready round =>
    have turn := fits_of_lt_peers (Nat.lt_of_lt_pred bounds)
    exact ⟨⟨own, size, turn, wraps _, empty⟩, wraps _, size, turn, wraps _, empty⟩

/-- The frame a rank expects tells its transfer, its predecessor and the
length. -/
lemma slot_of_frames {total' : Nat} {slot' : Slot}
    (same : other.sendFrame total' slot' = group.receiveFrame total slot) :
    other.rank = predecessor group.peers.length group.rank ∧ total' = total ∧ slot' = slot := by
  cases slot' <;> cases slot <;> simp_all [Group.sendFrame, Group.receiveFrame]

lemma source_length_le (inputs : Values) :
    (group.source total inputs slot).length ≤ chunkElements := by
  cases slot with
  | data round chunk =>
    rw [Group.source, slice]
    exact le_trans (length_take_le _ _) (slotLength_le _ _)
  | hello | ready => exact Nat.zero_le _

end Bounds

open Function (update update_self update_of_ne)

namespace Ring

variable {ι : Type} [DecidableEq ι] {sha256 : Bytes → Digest}
  {hmac : Bytes → Bytes → Digest}
  {add : Float32Bits → Float32Bits → Float32Bits}

/-! ## What holds at every moment -/

/-- A group as it was configured, in some state. -/
def Configured (fixed group : Group) : Prop :=
  ∃ step poisoned, group = { fixed with step := step, poisoned := poisoned }

/-- A frame that some rank has written when it had come to its place. -/
structure Written (sha256 : List UInt8 → Digest) (fixed : Group)
    (reached : List (UInt64 × Nat × Nat)) (frame : List UInt8) (step : UInt64)
    (total done : Nat) (slot : Slot) (values : List Float32Bits) : Prop where
  place : (step, total, done) ∈ reached
  small : total ≤ maxTensorElements
  slot_eq : (slots fixed.peers.length total)[done]? = some slot
  body : frame.take bodyLength = { fixed with step := step : Group }.body sha256
      (fixed.sendFrame total slot) values

/-- Two ranks of one ring. -/
structure Together (fixed other : Group) : Prop where
  session : other.session = fixed.session
  peers : other.peers = fixed.peers

/-- The predecessor of a rank in its ring has come to `place`. -/
def Precedes (fixed : ι → Group) (reached : ι → List (UInt64 × Nat × Nat)) (index : ι)
    (place : UInt64 × Nat × Nat) : Prop :=
  ∃ other, Together (fixed index) (fixed other) ∧
    (fixed other).rank = predecessor (fixed index).peers.length (fixed index).rank ∧
    place ∈ reached other

/-- No two lists of members have one digest. -/
def MembersDiffer (sha256 : List UInt8 → Digest) (fixed : ι → Group) : Prop :=
  ∀ index other, sha256 (membershipInput (fixed index).peers) =
      sha256 (membershipInput (fixed other).peers) →
    membershipInput (fixed index).peers = membershipInput (fixed other).peers

/-- The ranks with their configurations fixed: every frame was written at its
place, and who has done a transfer has a predecessor that had come as far as
the transfer before. -/
structure Causal (sha256 : List UInt8 → Digest) (fixed : ι → Group) (ring : Ring ι) : Prop where
  configured : ∀ index, Configured (fixed index) (ring.groups index)
  active : ∀ index call, ring.calls index = some call → (ring.groups index).poisoned = true ∧
    call.values.length ≤ maxTensorElements ∧
    ring.vectors index = call.values ∧
    ((ring.groups index).step, call.values.length, call.done) ∈ ring.reached index
  written : ∀ frame ∈ ring.written, ∃ index step total done slot values,
    Written sha256 (fixed index) (ring.reached index) frame step total done slot values
  behind : ∀ index step total done, (step, total, done + 1) ∈ ring.reached index →
    Precedes fixed ring.reached index (step, total, done)

variable {fixed : ι → Group} {group : Group} {ring : Ring ι}
  {values : Values} {i : ι} {call : Call} {step : UInt64}

variable {bytes frame : Bytes}

lemma receive_eq_ok {after : Call} (received : group.receive sha256 hmac call bytes = .ok after) :
    ∃ slot values, (slots group.peers.length call.values.length)[call.done]? = some slot ∧
      group.decode sha256 hmac bytes
        (group.receiveFrame call.values.length slot)
        (slotLength call.values.length slot) = .ok values ∧
      after = { call with
        inputs := group.store call.values.length call.inputs values slot
        done := call.done + 1
        sent := false } := by
  rw [Group.receive] at received
  split at received
  next => cases received
  next slot present =>
    split at received
    next => cases received
    next values decoded =>
      cases received
      exact ⟨slot, values, present, decoded, rfl⟩

omit [DecidableEq ι] in
/-- The frame that a rank reads was written by its predecessor, when that had
done as many transfers. -/
lemma Causal.predecessor_reached (causal : Causal sha256 fixed ring)
    (differ : MembersDiffer sha256 fixed) {after : Call} (active : ring.calls i = some call)
    (authentic : ring.Authentic hmac (ring.groups i) bytes)
    (received : (ring.groups i).receive sha256 hmac call bytes = .ok after) :
    Precedes fixed ring.reached i ((ring.groups i).step, call.values.length, call.done) := by
  obtain ⟨slot, values, present, decoded, _⟩ := receive_eq_ok received
  obtain ⟨_, genuine, header, _⟩ := decode_eq_ok.mp decoded
  obtain ⟨frame, mem, same⟩ := authentic genuine
  obtain ⟨j, step, total, done, slot', values', wrote⟩ := causal.written frame mem
  obtain ⟨_, small, _, _⟩ := causal.active i call active
  obtain ⟨cur, poisoned, group_eq⟩ := causal.configured i
  rw [group_eq] at present header ⊢
  -- both headers are the first bytes of the frame
  have headers : { fixed j with step := step : Group }.header sha256
      ((fixed j).sendFrame total slot') =
      { fixed i with step := cur, poisoned := poisoned :
        Group }.header sha256 ((fixed i).receiveFrame call.values.length slot) := by
    have start : (bytes.take bodyLength).take headerLength = bytes.take headerLength := by
      rw [take_take]
      rfl
    rw [← same, wrote.body, Group.body, take_left' (header_length _ _)] at start
    exact start.trans header
  obtain ⟨session, membership, rfl, frames⟩ := header_injective
    (frames_fit wrote.small (mem_of_getElem? wrote.slot_eq)).1
    (frames_fit small (mem_of_getElem? present)).2 headers
  obtain ⟨rank, rfl, rfl⟩ := slot_of_frames frames
  have peers : (fixed j).peers = (fixed i).peers :=
    membershipInput_injective (differ j i membership)
  -- a transfer has one place in the order
  have places : done = call.done := by
    have first := wrote.slot_eq
    rw [peers] at first
    obtain ⟨inside, _⟩ := List.getElem?_eq_some_iff.mp first
    exact (List.getElem?_inj inside (slots_nodup _ _)).mp (first.trans present.symm)
  rw [← places]
  exact ⟨j, ⟨session, peers⟩, rank, wrote.place⟩

lemma begin_eq_ok {after : Group} (begun : group.begin values = .ok (after, call)) :
    group.poisoned = false ∧ values.length ≤ maxTensorElements ∧ group.step.toNat + 1 < 2 ^ 64 ∧
      after = { group with poisoned := true } ∧
      call = {
        values := values
        inputs := splice (group.rank * values.length) values
          (List.replicate (group.peers.length * values.length) 0)
        done := 0
        sent := false } := by
  rw [Group.begin] at begun
  split_ifs at begun with healthy sizes room
  cases begun
  exact ⟨Bool.eq_false_iff.mpr healthy, sizes.1, room, rfl, rfl⟩

lemma finish_eq_some {after : Group} {result : Values}
    (finished : group.finish add call = some (result, after)) :
    call.done = (slots group.peers.length call.values.length).length ∧
      after = { group with step := group.step + 1, poisoned := false } := by
  rw [Group.finish] at finished
  split at finished
  next done =>
    cases finished
    exact ⟨done, rfl⟩
  next => cases finished

lemma transmit_eq_some (present : group.transmit sha256 hmac call = some frame) :
    ∃ slot, (slots group.peers.length call.values.length)[call.done]? = some slot ∧
      frame = group.encode sha256 hmac
        (group.sendFrame call.values.length slot)
        (group.source call.values.length call.inputs slot) := by
  rw [Group.transmit, Option.map_eq_some_iff] at present
  obtain ⟨slot, found, same⟩ := present
  exact ⟨slot, found, same.symm⟩

variable {total done rank : Nat}

lemma Written.mono {fixed : Group} {reached more : List (UInt64 × Nat × Nat)} {slot : Slot}
    (wrote : Written sha256 fixed reached frame step total done slot values)
    (kept : ∀ entry ∈ reached, entry ∈ more) :
    Written sha256 fixed more frame step total done slot values :=
  ⟨kept _ wrote.place, wrote.small, wrote.slot_eq, wrote.body⟩

/-- A new entry of a rank that is a beginning, or that its predecessor is not
more than one transfer behind. -/
lemma Causal.log (causal : Causal sha256 fixed ring) (i : ι) (entry : UInt64 × Nat × Nat)
    (backed : entry.2.2 = 0 ∨
      Precedes fixed ring.reached i (entry.1, entry.2.1, entry.2.2 - 1)) :
    let reached := update ring.reached i (entry :: ring.reached i)
    (∀ frame ∈ ring.written, ∃ i step total done slot values,
      Written sha256 (fixed i) (reached i) frame step total done slot values) ∧
    ∀ rank step total done, (step, total, done + 1) ∈ reached rank →
      Precedes fixed reached rank (step, total, done) := by
  refine ⟨fun frame mem => ?_, fun rank step total done inside => ?_⟩
  · obtain ⟨owner, step, total, done, slot, values, wrote⟩ := causal.written frame mem
    exact ⟨owner, step, total, done, slot, values,
      wrote.mono fun _ old => mem_update_cons.mpr (.inr old)⟩
  · rcases mem_update_cons.mp inside with ⟨rfl, rfl⟩ | old
    · obtain ⟨j, together, rank_eq, reached⟩ := backed.resolve_left (Nat.succ_ne_zero done)
      exact ⟨j, together, rank_eq, mem_update_cons.mpr (.inr reached)⟩
    · obtain ⟨j, together, rank_eq, reached⟩ := causal.behind rank step total done old
      exact ⟨j, together, rank_eq, mem_update_cons.mpr (.inr reached)⟩

lemma Causal.configured_update (causal : Causal sha256 fixed ring)
    (changed : Configured (fixed i) group) (j : ι) :
    Configured (fixed j) (update ring.groups i group j) :=
  (Function.forall_update_iff _ fun j group => Configured (fixed j) group).mpr
    ⟨changed, fun j _ => causal.configured j⟩ j

/-- Every step keeps what holds. -/
lemma Step.causal {fixed : ι → Group} {ring next : Ring ι}
    (differ : MembersDiffer sha256 fixed) (step : Step sha256 hmac add ring next)
    (causal : Causal sha256 fixed ring) : Causal sha256 fixed next := by
  cases step with
  | @begin i values group call idle begun =>
    obtain ⟨_, small, _, rfl, rfl⟩ := begin_eq_ok begun
    obtain ⟨written, behind⟩ := causal.log i ((ring.groups i).step, values.length, 0) (.inl rfl)
    refine ⟨causal.configured_update ?_, fun j call active => ?_, written, behind⟩
    · obtain ⟨step, poisoned, group_eq⟩ := causal.configured i
      rw [group_eq]
      exact ⟨step, true, rfl⟩
    · by_cases same : j = i
      · subst same
        simp only [update_self, Option.some.injEq] at active ⊢
        subst active
        exact ⟨trivial, small, rfl, mem_cons_self⟩
      · simp only [update_of_ne same] at active ⊢
        exact causal.active j call active
  | @write i call frame active unsent present =>
    obtain ⟨poisoned, small, vector, reached⟩ := causal.active i call active
    refine ⟨causal.configured, fun j call' active' => ?_, fun found mem => ?_, causal.behind⟩
    · by_cases same : j = i
      · subst same
        simp only [update_self, Option.some.injEq] at active'
        subst active'
        exact ⟨poisoned, small, vector, reached⟩
      · simp only [update_of_ne same] at active'
        exact causal.active j call' active'
    · rcases mem_cons.mp mem with rfl | old
      · obtain ⟨slot, slot_eq, rfl⟩ := transmit_eq_some present
        obtain ⟨step, flag, group_eq⟩ := causal.configured i
        refine ⟨i, (ring.groups i).step, call.values.length, call.done, slot,
          (ring.groups i).source call.values.length call.inputs slot,
          reached, small, ?_, (take_encode (source_length_le _)).trans ?_⟩
        · rw [group_eq] at slot_eq
          exact slot_eq
        · rw [group_eq]
          rfl
      · exact causal.written found old
  | @read i call bytes after active sent authentic received =>
    obtain ⟨poisoned, small, vector, _⟩ := causal.active i call active
    obtain ⟨slot, values, _, _, rfl⟩ := receive_eq_ok received
    obtain ⟨written, behind⟩ := causal.log i
      ((ring.groups i).step, call.values.length, call.done + 1)
      (.inr (causal.predecessor_reached differ active authentic received))
    refine ⟨causal.configured, fun j call' active' => ?_, written, behind⟩
    by_cases same : j = i
    · subst same
      simp only [update_self, Option.some.injEq] at active' ⊢
      subst active'
      exact ⟨poisoned, small, vector, mem_cons_self⟩
    · simp only [update_of_ne same] at active' ⊢
      exact causal.active j call' active'
  | @«return» i call result group active finished =>
    obtain ⟨_, rfl⟩ := finish_eq_some finished
    refine ⟨causal.configured_update ?_, fun j call' active' => ?_, causal.written, causal.behind⟩
    · obtain ⟨step, poisoned, group_eq⟩ := causal.configured i
      rw [group_eq]
      exact ⟨step + 1, false, rfl⟩
    · by_cases same : j = i
      · subst same
        simp only [update_self] at active'
        cases active'
      · simp only [update_of_ne same] at active' ⊢
        exact causal.active j call' active'
  | @fail i call active =>
    refine ⟨causal.configured, fun j call' active' => ?_, causal.written, causal.behind⟩
    by_cases same : j = i
    · subst same
      simp only [update_self] at active'
      cases active'
    · simp only [update_of_ne same] at active'
      exact causal.active j call' active'

lemma run_causal {start : Ring ι} (initial : start.Initial)
    (differ : MembersDiffer sha256 start.groups)
    (run : Relation.ReflTransGen (Step sha256 hmac add) start ring) :
    Causal sha256 start.groups ring := by
  induction run with
  | refl =>
    -- nothing has happened yet
    refine ⟨fun i => ⟨_, _, rfl⟩, ?_, ?_, ?_⟩
    all_goals simp [initial.calls, initial.written, initial.reached]
  | tail _ step ih => exact step.causal differ ih

/-! ## Around the ring -/

omit [DecidableEq ι] in
/-- Behind a rank that has done some transfers, the rank so many places before
it has done all but as many. -/
lemma Causal.reached_behind (causal : Causal sha256 fixed ring)
    (inside : (step, total, done) ∈ ring.reached i) (distance : Nat) (near : distance ≤ done) :
    ∃ j, Together (fixed i) (fixed j) ∧
      ((fixed j).rank + distance) % (fixed i).peers.length = (fixed i).rank ∧
      (step, total, done - distance) ∈ ring.reached j := by
  induction distance with
  | zero => exact ⟨i, ⟨rfl, rfl⟩, Nat.mod_eq_of_lt (fixed i).member, inside⟩
  | succ distance ih =>
    obtain ⟨middle, together, place, reached⟩ := ih (Nat.le_of_succ_le near)
    obtain ⟨less, less_eq⟩ : ∃ less, done - distance = less + 1 := ⟨done - distance - 1, by omega⟩
    rw [less_eq] at reached
    obtain ⟨j, behind, rank, reached⟩ := causal.behind _ _ _ _ reached
    refine ⟨j, ⟨behind.session.trans together.session, behind.peers.trans together.peers⟩, ?_, ?_⟩
    · have positive := (fixed middle).positive
      have next : ((fixed j).rank + 1) % (fixed middle).peers.length = (fixed middle).rank := by
        rw [rank, predecessor, Nat.mod_add_mod, Nat.sub_add_cancel (by omega), Nat.add_mod_right,
          Nat.mod_eq_of_lt (fixed middle).member]
      rw [together.peers] at next
      rw [add_comm distance 1, ← add_assoc, ← place, ← next, Nat.mod_add_mod]
    · rw [Nat.sub_succ, less_eq]
      exact reached

/-- The rank that is so many places before another one. -/
lemma rank_of_distance {peers j : Nat} (mem : rank < peers) (otherMember : j < peers)
    {found : Nat} (foundMember : found < peers)
    (place : (found + (rank + peers - j) % peers) % peers = rank) : found = j := by
  have target : (j + (rank + peers - j) % peers) % peers = rank := by
    rw [Nat.add_mod_mod, Nat.add_sub_cancel' (by omega), Nat.add_mod_right, Nat.mod_eq_of_lt mem]
  have same : Nat.ModEq peers found j := Nat.ModEq.add_right_cancel' _ (place.trans target.symm)
  rwa [Nat.ModEq, Nat.mod_eq_of_lt foundMember, Nat.mod_eq_of_lt otherMember] at same

omit [DecidableEq ι] in
/-- A rank that has done all its transfers: every rank has done its data
exchange. -/
lemma Causal.all_completed (causal : Causal sha256 fixed ring)
    (inside : (step, total, (slots (fixed i).peers.length total).length) ∈ ring.reached i)
    (member : rank < (fixed i).peers.length) :
    ∃ j, Together (fixed i) (fixed j) ∧ (fixed j).rank = rank ∧
      ∃ done, dataEnd (fixed i).peers.length total ≤ done ∧
        (step, total, done) ∈ ring.reached j := by
  have positive := (fixed i).positive
  have distance : ((fixed i).rank + (fixed i).peers.length - rank) %
      (fixed i).peers.length ≤ (fixed i).peers.length - 1 :=
    Nat.le_sub_one_of_lt (Nat.mod_lt _ positive)
  have size := slots_length (fixed i).peers.length total
  obtain ⟨j, together, place, reached⟩ :=
    causal.reached_behind inside
      (((fixed i).rank + (fixed i).peers.length - rank) % (fixed i).peers.length) (by omega)
  refine ⟨j, together, ?_, _, ?_, reached⟩
  · have otherMember := (fixed j).member
    rw [together.peers] at otherMember
    exact rank_of_distance (fixed i).member member otherMember place
  · omega

/-! ## Failed calls -/

/-- A group that refuses every call. -/
def Refuses (group : Group) : Prop :=
  ∀ values, ∃ message, group.begin values = .error message

lemma refuses_of_poisoned (bad : group.poisoned = true) : Refuses group := by
  intro values
  rw [Group.begin, if_pos bad]
  exact ⟨_, rfl⟩

/-- Only too many values are refused once. -/
lemma refuses_of_error {msg : String} (error : group.begin values = .error msg) :
    msg = sizeError ∨ Refuses group := by
  rw [Group.begin] at error
  split_ifs at error with bad sizes last
  · exact .inr (refuses_of_poisoned bad)
  · refine .inr fun others => ?_
    rw [Group.begin, if_pos last]
    split_ifs <;> exact ⟨_, rfl⟩
  · cases error
    exact .inl rfl

/-- A rank that refuses every call goes on to do so. -/
lemma run_refuses {later : Ring ι} (run : Relation.ReflTransGen (Step sha256 hmac add) ring later)
    (idle : ring.calls i = none) (refuses : Refuses (ring.groups i)) :
    later.calls i = none ∧ Refuses (later.groups i) := by
  induction run with
  | refl => exact ⟨idle, refuses⟩
  | @tail before _ _ step ih =>
    obtain ⟨idle, refuses⟩ := ih
    have differ {j call} (active : before.calls j = some call) : i ≠ j :=
      ne_of_apply_ne before.calls (by simp [idle, active])
    cases step with
    | @begin j values group call _ begun =>
      have differ : i ≠ j := by
        rintro rfl
        obtain ⟨msg, error⟩ := refuses values
        cases begun.symm.trans error
      simp only [update_of_ne differ]
      exact ⟨idle, refuses⟩
    | write active | read active | «return» active | fail active =>
      simp only [update_of_ne (differ active)]
      exact ⟨idle, refuses⟩

/-! ## The ring -/

/-- In every run, whatever links fail and with whatever lengths, steps and
sessions the ranks call: if a rank's call returns, every rank of its ring has
done its data exchange with the same session, members, step and length. A
call that fails leaves its caller's values, and every later call of that rank
is refused; a call that is refused at once changes nothing, and unless it had
too many values all later ones are refused as well. -/
theorem ring_commits {start ring : Ring ι} (initial : start.Initial)
    (collisionFree : ∀ index other, sha256 (membershipInput (start.groups index).peers) =
        sha256 (membershipInput (start.groups other).peers) →
      membershipInput (start.groups index).peers = membershipInput (start.groups other).peers)
    (run : Relation.ReflTransGen (Step sha256 hmac add) start ring) :
    (∀ index call result group, ring.calls index = some call →
      (ring.groups index).finish add call = some (result, group) →
      ∀ rank < (ring.groups index).peers.length, ∃ other, (ring.groups other).rank = rank ∧
        (ring.groups other).session = (ring.groups index).session ∧
        (ring.groups other).peers = (ring.groups index).peers ∧
        ∃ done, dataEnd (ring.groups index).peers.length call.values.length ≤ done ∧
          ((ring.groups index).step, call.values.length, done) ∈ ring.reached other) ∧
    (∀ index call, ring.calls index = some call → ring.vectors index = call.values ∧
      ∀ later, Relation.ReflTransGen (Step sha256 hmac add)
          { ring with calls := update ring.calls index none } later →
        ∀ values, ∃ message, (later.groups index).begin values = .error message) ∧
    (∀ index values message, ring.calls index = none →
      (ring.groups index).begin values = .error message →
      message = sizeError ∨
      ∀ later, Relation.ReflTransGen (Step sha256 hmac add) ring later → ∀ values, ∃ message,
          (later.groups index).begin values = .error message) := by
  have causal := run_causal initial collisionFree run
  refine ⟨fun index call result group active finished rank member => ?_,
    fun index call active => ?_, fun index values message idle error => ?_⟩
  · obtain ⟨done, _⟩ := finish_eq_some finished
    obtain ⟨_, _, _, reached⟩ := causal.active index call active
    obtain ⟨step, poisoned, group_eq⟩ := causal.configured index
    rw [done, group_eq] at reached
    rw [group_eq] at member
    obtain ⟨other, together, rank_eq, rest⟩ := causal.all_completed reached member
    obtain ⟨otherStep, otherPoisoned, other_eq⟩ := causal.configured other
    refine ⟨other, ?_⟩
    rw [other_eq, group_eq]
    exact ⟨rank_eq, together.session, together.peers, rest⟩
  · obtain ⟨poisoned, _, vector, _⟩ := causal.active index call active
    refine ⟨vector, fun later run => ?_⟩
    exact (run_refuses run (update_self _ _ _) (refuses_of_poisoned poisoned)).2
  · refine (refuses_of_error error).imp_right fun refuses later run => ?_
    exact (run_refuses run idle refuses).2

/-- Two ranks. -/
def pair (rank : Fin 2) : Group where
  peers := [.v4 (Vector.replicate 4 1) 1, .v4 (Vector.replicate 4 1) 2]
  rank := rank.val
  session := Vector.replicate 16 0
  psk := []
  step := 0
  poisoned := false
  few := by decide
  member := rank.isLt

/-- The two ranks while they call. -/
def pairing (rank : Fin 2) : Group :=
  { pair rank with poisoned := true }

/-- The first bytes in the place of their hash. -/
def firstBytes (bytes : List UInt8) : Digest :=
  Vector.ofFn fun index => bytes.getD index 0

def firstTag (key bytes : List UInt8) : Digest :=
  firstBytes (key ++ bytes)

/-- A call of one of the two ranks. -/
def pairCall (inputs : Fin 2 → List Float32Bits) (done : Nat) (sent : Bool) (rank : Fin 2) : Call :=
  ⟨[5 + rank.val.toUInt32], inputs rank, done, sent⟩

/-- The frame of one of the two ranks. -/
def pairFrame (inputs : Fin 2 → List Float32Bits) (slot : Slot) (rank : Fin 2) : List UInt8 :=
  (pairing rank).encode firstBytes firstTag ((pairing rank).sendFrame 1 slot)
    ((pairing rank).source 1 (inputs rank) slot)

/-- A transfer of the two ranks: both write, then both read. -/
lemma pair_transfer {ring : Ring (Fin 2)} {inputs after : Fin 2 → List Float32Bits} {done : Nat}
    (slot : Slot) (present : (slots 2 1)[done]? = some slot)
    (received : ∀ rank, (pairing rank).receive firstBytes firstTag (pairCall inputs done true rank)
      (pairFrame inputs slot (1 - rank)) = .ok (pairCall after (done + 1) false rank))
    (groups : ring.groups = pairing)
    (active : ring.calls = fun rank => some (pairCall inputs done false rank)) :
    ∃ later : Ring (Fin 2), Relation.ReflTransGen (Step firstBytes firstTag (· + ·)) ring later ∧
      later.groups = pairing ∧
      later.calls = fun rank => some (pairCall after (done + 1) false rank) := by
  have writes (rank : Fin 2) : (pairing rank).transmit firstBytes firstTag
      (pairCall inputs done false rank) = some (pairFrame inputs slot rank) :=
    congrArg (Option.map _) present
  obtain ⟨_, _, vectors, written, reached⟩ := ring
  dsimp only at groups active
  subst groups active
  have run := Relation.ReflTransGen.single (@Step.write (Fin 2) _ _ _ (· + ·)
    ⟨pairing, fun rank => some (pairCall inputs done false rank), vectors, written, reached⟩ 0 _ _
    rfl rfl (writes 0))
  have run := run.tail (@Step.write _ _ _ _ _ _ 1 _ _ rfl rfl (writes 1))
  have run := run.tail (@Step.read _ _ _ _ _ _ 0 _ _ _ rfl rfl (fun _ => ⟨_, .head _, rfl⟩)
    (received 0))
  have run := run.tail (@Step.read _ _ _ _ _ _ 1 _ _ _ rfl rfl
    (fun _ => ⟨_, .tail _ (.head _), rfl⟩) (received 1))
  refine ⟨_, run, rfl, ?_⟩
  funext rank
  match rank with
  | 0 | 1 => rfl

/-- Two ranks with one value each: behind their greetings, data and completion
tokens rank zero returns the sum, and both have done their data exchange. -/
theorem ring_commits_of_pair : ∃ start ring : Ring (Fin 2), start.Initial ∧
    Relation.ReflTransGen (Step firstBytes firstTag (· + ·)) start ring ∧
    ∃ call result, ring.calls 0 = some call ∧
      (ring.groups 0).finish (· + ·) call = some ([11], result) ∧
      ∀ rank < 2, ∃ other, (ring.groups other).rank = rank ∧
        ∃ done, dataEnd 2 1 ≤ done ∧ (0, 1, done) ∈ ring.reached other := by
  let start : Ring (Fin 2) := {
    groups := pair
    calls := fun _ => none
    vectors := fun _ => []
    written := []
    reached := fun _ => [] }
  have initial : start.Initial := ⟨fun _ => rfl, fun _ => rfl, rfl, fun _ => rfl⟩
  let own (rank : Fin 2) : List Float32Bits := if rank = 0 then [5, 0] else [0, 6]
  obtain ⟨begun, run, groups, active⟩ : ∃ begun, Relation.ReflTransGen
      (Step firstBytes firstTag (· + ·)) start begun ∧ begun.groups = pairing ∧
      begun.calls = fun rank => some (pairCall own 0 false rank) := by
    have run := Relation.ReflTransGen.single (@Step.begin (Fin 2) _ firstBytes firstTag (· + ·)
      start 0 [5] _ _ rfl rfl)
    refine ⟨_, run.tail (@Step.begin _ _ _ _ _ _ 1 [6] _ _ rfl rfl), ?_, ?_⟩
    all_goals
      funext rank
      match rank with
      | 0 | 1 => rfl
  obtain ⟨greeted, hello, groups, active⟩ :=
    @pair_transfer _ own own 0 .hello rfl (by decide +kernel) groups active
  obtain ⟨exchanged, data, groups, active⟩ :=
    @pair_transfer _ own (fun _ => [5, 6]) 1 (.data 0 0) rfl (by decide +kernel) groups active
  obtain ⟨ring, tokens, groups, active⟩ :=
    @pair_transfer _ _ (fun _ => [5, 6]) 2 (.ready 0) rfl (by decide +kernel) groups active
  have run := ((run.trans hello).trans data).trans tokens
  have returned : ring.calls 0 = some ⟨[5], [5, 6], 3, false⟩ := congrFun active 0
  have finished : (ring.groups 0).finish (· + ·) ⟨[5], [5, 6], 3, false⟩ =
      some ([11], { pair 0 with step := 1 }) := by
    rw [groups]
    rfl
  refine ⟨start, ring, initial, run, _, _, returned, finished, fun rank member => ?_⟩
  have facts := (ring_commits initial (fun _ _ _ => rfl) run).1 0 _ _ _ returned finished rank
  rw [groups] at facts
  obtain ⟨other, rank_eq, _, _, reached⟩ := facts member
  exact ⟨other, groups ▸ rank_eq, reached⟩

/-- A call with too many values is refused, and the next one returns. -/
theorem call_after_refusal : single.begin (List.replicate 262145 0) = .error sizeError ∧
    ∃ group call result next, single.begin [5] = .ok (group, call) ∧
      group.finish (fun left _ => left) call = some (result, next) := by
  refine ⟨?_, _, _, _, _, rfl, rfl⟩
  have long : ¬ (List.replicate 262145 (0 : Float32Bits)).length ≤ maxTensorElements := by
    rw [length_replicate]
    decide
  rw [Group.begin, if_neg (by decide), if_pos (fun sizes => long sizes.1)]

end Ring

end Joshua.TcpRing
