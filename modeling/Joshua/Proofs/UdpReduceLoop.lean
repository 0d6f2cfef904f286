/-
Module: Joshua.Proofs.UdpReduceLoop
Purpose: The datagrams that a rank accepts say what their sender put into
  them, and what a rank has gathered in its exchange loop are the true inputs
  of the ranks, whatever datagrams it is handed.
Trusted boundary: none
-/
import Joshua.Model.UdpReduce
import Mathlib.Data.Finset.Prod

namespace Joshua.UdpReduce
open Joshua.Foundation List

variable {values : Values} {hmac : Bytes → Bytes → Digest} {code bytes : Bytes} {packet : Packet}
  {rank rank' chunk chunk' total size : Nat}

section
section
variable (envelope : Envelope) (kind : Kind) (rank chunk size : Nat)

lemma headerFields_widths : (headerFields envelope kind rank chunk size).map List.length =
      headerWidths := by
  have short : magic.length = 4 := by decide +kernel
  simp [headerFields, headerWidths, short]

lemma headerFields_length : (headerFields envelope kind rank chunk size).flatten.length =
      headerLength := by
  rw [length_flatten, headerFields_widths]
  rfl

end

/-- The numbers of a datagram fit into their fields. -/
structure Fits (envelope : Envelope) (rank chunk : Nat) (values : List Float32Bits) : Prop where
  peers : envelope.peers < 256 ^ 2
  total : envelope.total < 256 ^ 4
  rank_lt : rank < 256 ^ 2
  chunk_lt : chunk < 256 ^ 4
  size : values.length * 4 < 256 ^ 2

variable {envelope : Envelope} {kind : Kind}

/-- A datagram tells what was put into it. -/
lemma body_injective {envelope' : Envelope} {kind' : Kind} {values' : Values}
    (fits : Fits envelope rank chunk values) (fits' : Fits envelope' rank' chunk' values')
    (same : body envelope kind rank chunk values = body envelope' kind' rank' chunk' values') :
    envelope = envelope' ∧ kind = kind' ∧ rank = rank' ∧ chunk = chunk' ∧ values = values' := by
  have fields := congrArg (cut headerWidths) same
  rw [body, body, cut_flatten (headerFields_widths _ _ _ _ _),
    cut_flatten (headerFields_widths _ _ _ _ _)] at fields
  have headers := congrArg List.flatten fields
  rw [body, body, headers] at same
  have words := List.append_cancel_left same
  simp only [headerFields, List.cons.injEq, true_and, and_true] at fields
  obtain ⟨kinds, session, step, rank, peers, total, chunk, size⟩ := fields
  have wide : ∀ word : UInt64, word.toNat < 256 ^ 8 := fun word => word.toNat_lt
  have sizes := beBytes_injective fits.size fits'.size size
  have lengths : values.length = values'.length := by omega
  refine ⟨?_, ?_, beBytes_injective fits.rank_lt fits'.rank_lt rank,
    beBytes_injective fits.chunk_lt fits'.chunk_lt chunk, ?_⟩
  · obtain ⟨_, _, _, _⟩ := envelope
    obtain ⟨_, _, _, _⟩ := envelope'
    rw [Envelope.mk.injEq]
    exact ⟨Vector.toList_inj.mp session,
      UInt64.toNat_inj.mp (beBytes_injective (wide _) (wide _) step),
      beBytes_injective fits.peers fits'.peers peers,
      beBytes_injective fits.total fits'.total total⟩
  · cases kind <;> cases kind' <;> first | rfl | cases kinds
  · rw [← readWords_wordBytes values [], words, lengths, readWords_wordBytes]

/-- The datagrams a call admits: from one of its ranks, and with a chunk of the
vector or with nothing. -/
structure Admissible (envelope : Envelope) (kind : Kind) (rank chunk : Nat)
    (values : List Float32Bits) : Prop where
  few : envelope.peers ≤ maxParticipants
  member : rank < envelope.peers
  small : envelope.total ≤ maxTensorElements
  bounded : envelope.total * envelope.peers ≤ maxTotalElements
  shape : match kind with
    | .data => chunk < chunkCount envelope.total ∧ values.length = chunkLength envelope.total chunk
    | .ready => chunk = 0 ∧ values = []

lemma kindOf_eq_some :
    kindOf code total chunk size = some kind ↔ code = [kind.code] ∧ match kind with
      | .data => chunk < chunkCount total ∧ size = chunkLength total chunk * 4
      | .ready => chunk = 0 ∧ size = 0 := by
  cases kind <;> grind [kindOf, Kind.code]

namespace Admissible

variable {envelope : Envelope} {kind : Kind} {rank chunk : Nat} {values : Values}
  (admissible : Admissible envelope kind rank chunk values)
include admissible

lemma length_le : values.length ≤ chunkElements := by
  have shape := admissible.shape
  cases kind with
  | data =>
    rw [shape.2]
    exact min_le_right _ _
  | ready =>
    rw [shape.2]
    exact Nat.zero_le _

lemma fits : Fits envelope rank chunk values := by
  have few := admissible.few
  have member := admissible.member
  have small := admissible.small
  have short := admissible.length_le
  have shape := admissible.shape
  simp only [maxParticipants, maxTensorElements, chunkElements] at *
  refine ⟨by omega, by omega, by omega, ?_, by omega⟩
  cases kind with
  | data =>
    have last := shape.1
    simp only [chunkCount, chunkElements] at last
    omega
  | ready => omega

end Admissible

/-- The number of bytes of an admitted payload. -/
lemma size_of_kind (found : kindOf code total chunk size = some kind) : size / 4 * 4 = size := by
  obtain ⟨_, shape⟩ := kindOf_eq_some.mp found
  cases kind with
  | data => rw [shape.2, Nat.mul_div_cancel _ (by decide)]
  | ready => rw [shape.2]

variable {bytes psk : Bytes}

/-- A header by its fields. -/
lemma header_of_cut {step rank peers total chunk size : Bytes} (long : headerLength ≤ bytes.length)
    (fields : cut headerWidths bytes = [magic, [1], code, [0, 0], envelope.session.toList, step,
      rank, peers, total, chunk, size, [0, 0]])
    (code_eq : code = [kind.code]) (step_eq : beValue step = envelope.step.toNat)
    (peers_eq : beValue peers = envelope.peers) (total_eq : beValue total = envelope.total) :
    (headerFields envelope kind (beValue rank) (beValue chunk)
      (beValue size)).flatten = bytes.take headerLength := by
  have widths : (cut headerWidths bytes).map length = headerWidths := cut_widths long
  rw [fields, headerWidths] at widths
  simp only [map_cons, List.cons.injEq, map_nil] at widths
  obtain ⟨_, _, _, _, _, step_len, rank_len, peers_len, total_len, chunk_len, size_len, _⟩ := widths
  rw [headerFields, ← step_eq, ← peers_eq, ← total_eq, ← code_eq,
    beBytes_beValue step_len, beBytes_beValue rank_len,
    beBytes_beValue peers_len, beBytes_beValue total_len,
    beBytes_beValue chunk_len, beBytes_beValue size_len, ← fields]
  exact flatten_cut _ _

/-- What is accepted is what is written for an admissible packet of the same
call. -/
lemma decode_accepted (found : decode hmac psk bytes envelope = some packet) :
    ∃ values, packet.payload = wordBytes values ∧
      Admissible envelope packet.kind packet.rank packet.chunk values ∧
      encode hmac psk envelope packet.kind packet.rank packet.chunk values = some bytes := by
  rw [decode] at found
  split at found
  next magic' version code reserved session step rank peers total chunk size reserved' fields =>
    split_ifs at found with first second genuine
    · split at found <;> cases found
    split at found
    next => cases found
    next kind kind_eq =>
      cases found
      obtain ⟨long, _, rfl, rfl, rfl, rfl, rfl, step_eq⟩ := first
      obtain ⟨peers_eq, _, few, rank_lt, total_eq, small, bounded, length⟩ := second
      obtain ⟨code_eq, shape⟩ := kindOf_eq_some.mp kind_eq
      have whole := size_of_kind kind_eq
      have header := header_of_cut (by omega) fields code_eq step_eq peers_eq total_eq
      have payload : wordBytes (readWords (beValue size / 4)
          (slice headerLength (beValue size) bytes)) =
          slice headerLength (beValue size) bytes := by
        rw [wordBytes_readWords (by rw [length_slice (by omega)]; omega),
          whole, slice, take_take, min_self]
      rw [peers_eq] at few rank_lt bounded
      rw [total_eq] at small bounded shape
      have admissible : Admissible envelope kind (beValue rank)
          (beValue chunk) (readWords (beValue size / 4)
            (slice headerLength (beValue size) bytes)) := by
        refine ⟨few, rank_lt, small, bounded, ?_⟩
        cases kind with
        | data =>
          refine ⟨shape.1, ?_⟩
          rw [readWords_length, shape.2, Nat.mul_div_cancel _ (by decide)]
        | ready =>
          refine ⟨shape.1, ?_⟩
          rw [shape.2]
          rfl
      refine ⟨_, payload.symm, admissible, ?_⟩
      rw [encode, if_pos admissible.length_le, body, readWords_length, whole,
        header, payload, slice, ← take_add, not_not.mp genuine, take_append_drop]
  next => cases found

lemma decode_encode (admissible : Admissible envelope kind rank chunk values)
    (encoded : encode hmac psk envelope kind rank chunk values = some bytes) :
    decode hmac psk bytes envelope = some ⟨kind, rank, chunk, wordBytes values⟩ := by
  have short := admissible.length_le
  have fits := admissible.fits
  rw [encode, if_pos short, Option.some.injEq] at encoded
  have header := headerFields_length envelope kind rank chunk (values.length * 4)
  have length : bytes.length = headerLength + values.length * 4 + tagLength := by
    rw [← encoded, body, length_append, length_append, header,
      wordBytes_length, Vector.length_toList]
    rfl
  have fields : cut headerWidths bytes =
      headerFields envelope kind rank chunk (values.length * 4) := by
    rw [← encoded, body, List.append_assoc, cut_flatten (headerFields_widths _ _ _ _ _)]
  have size : (body envelope kind rank chunk values).length = headerLength + values.length * 4 := by
    rw [body, length_append, header, wordBytes_length]
  have genuine : (hmac psk (bytes.take (headerLength + values.length * 4))).toList =
      bytes.drop (headerLength + values.length * 4) := by
    rw [← encoded, take_left' size, drop_left' size]
  have payload : slice headerLength (values.length * 4) bytes = wordBytes values := by
    rw [← encoded, body, List.append_assoc, slice, drop_left' header,
      take_left' (wordBytes_length values)]
  have stepFits : envelope.step.toNat < 256 ^ 8 := envelope.step.toNat_lt
  have kind_eq : kindOf [kind.code] envelope.total chunk (values.length * 4) = some kind := by
    have shape := admissible.shape
    refine kindOf_eq_some.mpr ⟨rfl, ?_⟩
    cases kind with
    | data => exact ⟨shape.1, by rw [shape.2]⟩
    | ready => exact ⟨shape.1, by rw [shape.2]; rfl⟩
  have peers := admissible.member
  rw [decode, fields, headerFields]
  simp only [beValue_beBytes stepFits, beValue_beBytes fits.rank_lt,
    beValue_beBytes fits.peers, beValue_beBytes fits.total,
    beValue_beBytes fits.chunk_lt, beValue_beBytes fits.size, kind_eq, payload]
  rw [if_neg, if_neg, if_neg]
  · exact not_not.mpr genuine
  · exact not_not.mpr ⟨trivial, by omega, admissible.few, peers, trivial,
      admissible.small, admissible.bounded, length⟩
  · refine not_not.mpr ⟨by omega, ?_, trivial, trivial, trivial, trivial, trivial, trivial⟩
    rw [length, maxPacket]
    omega

/-- A packet is read exactly from what is written for it, for the same call and
where that admits it. -/
theorem decode_eq_some_iff (psk bytes : List UInt8) (envelope : Envelope) (packet : Packet) :
    decode hmac psk bytes envelope = some packet ↔ ∃ values, packet.payload = wordBytes values ∧
        Admissible envelope packet.kind packet.rank packet.chunk values ∧
        encode hmac psk envelope packet.kind packet.rank packet.chunk values = some bytes := by
  constructor
  · exact decode_accepted
  · rintro ⟨values, payload, admissible, encoded⟩
    rw [decode_encode admissible encoded, ← payload]

/-- An accepted datagram says what was sent, for the same call. -/
lemma decode_sent {expected : Envelope} (found : decode hmac psk bytes expected = some packet) :
    ∃ size, (hmac psk (bytes.take size)).toList = bytes.drop size ∧
      ∀ envelope kind rank chunk values, Fits envelope rank chunk values →
        bytes.take size = body envelope kind rank chunk values →
        envelope = expected ∧ kind = packet.kind ∧ rank = packet.rank ∧
        packet.rank < expected.peers ∧ chunk = packet.chunk ∧
        packet.payload = wordBytes values ∧
        (kind = .data → packet.chunk < chunkCount expected.total ∧
          values.length = chunkLength expected.total packet.chunk) := by
  obtain ⟨values, payload, admissible, encoded⟩ := decode_accepted found
  rw [encode, if_pos admissible.length_le, Option.some.injEq] at encoded
  subst encoded
  refine ⟨(body expected packet.kind packet.rank packet.chunk values).length, ?_, ?_⟩
  · rw [take_left, drop_left]
  · intro envelope kind rank chunk others fits same
    rw [take_left] at same
    obtain ⟨rfl, rfl, rfl, rfl, rfl⟩ := body_injective admissible.fits fits same
    refine ⟨rfl, rfl, rfl, admissible.member, rfl, payload, fun data => ?_⟩
    have shape := admissible.shape
    rw [data] at shape
    exact shape

end

variable {ι : Type}

/-! ## What has been said and gathered -/

/-- The member of a rank's group with a given rank. -/
structure Member (fixed : ι → Group) (index : ι) (rank : Nat) (other : ι) : Prop where
  session : (fixed other).session = (fixed index).session
  peers : (fixed other).peers = (fixed index).peers
  rank : (fixed other).rank = rank

/-- A part of inputs is a chunk of what a member has called with. -/
def TrueChunk (fixed : ι → Group) (called : ι → List (UInt64 × List Float32Bits)) (index : ι)
    (step : UInt64) (total rank chunk : Nat) (part : List Float32Bits) : Prop :=
  ∃ other values, Member fixed index rank other ∧
    (step, values) ∈ called other ∧ values.length = total ∧
    part = slice (chunk * chunkElements) (chunkLength total chunk) values

/-- All chunks of inputs are true. -/
structure Gathered (fixed : ι → Group) (called : ι → List (UInt64 × List Float32Bits)) (index : ι)
    (step : UInt64) (total : Nat) (inputs : List Float32Bits) : Prop where
  small : total ≤ maxTensorElements
  length : inputs.length = (fixed index).peers * total
  own : ∃ values, (step, values) ∈ called index ∧ values.length = total
  chunks : ∀ rank < (fixed index).peers, ∀ chunk < chunkCount total,
    TrueChunk fixed called index step total rank chunk
      (slice (rank * total + chunk * chunkElements) (chunkLength total chunk) inputs)

/-- What a datagram that a rank has sent can say: a chunk of the values it
called with, or that it has gathered everything. -/
inductive Message (fixed : Group) (called : List (UInt64 × List Float32Bits))
    (gathered : List (UInt64 × Nat × List Float32Bits)) : List UInt8 → Prop
  | data {step values chunk} (inside : (step, values) ∈ called)
      (small : values.length ≤ maxTensorElements)
      (chunk_lt : chunk < chunkCount values.length) :
      Message fixed called gathered
        (body ⟨fixed.session, step, fixed.peers, values.length⟩ .data fixed.rank chunk
          (slice (chunk * chunkElements) (chunkLength values.length chunk) values))
  | ready {step total inputs} (inside : (step, total, inputs) ∈ gathered)
      (small : total ≤ maxTensorElements) :
      Message fixed called gathered
        (body ⟨fixed.session, step, fixed.peers, total⟩ .ready fixed.rank 0 [])

variable {total chunk : Nat}

lemma chunkCount_le (small : total ≤ maxTensorElements) : chunkCount total ≤ 1024 := by
  have bound : total + chunkElements - 1 < 1025 * chunkElements := by
    simp only [maxTensorElements, chunkElements] at small ⊢
    omega
  exact Nat.lt_succ_iff.mp (Nat.div_lt_of_lt_mul (by rwa [mul_comm]))

/-- A chunk lies within its vector. -/
lemma chunk_inside (chunk_lt : chunk < chunkCount total) : chunk * chunkElements < total := by
  rw [chunkCount, Nat.lt_div_iff_mul_lt (by decide)] at chunk_lt
  simp only [chunkElements] at chunk_lt ⊢
  omega

lemma chunk_lt_of_inside (lt : chunk * chunkElements < total) : chunk < chunkCount total := by
  rw [chunkCount, Nat.lt_div_iff_mul_lt (by decide)]
  simp only [chunkElements] at lt ⊢
  omega

lemma slice_length_le {start : Nat} : (slice start size values).length ≤ size := by
  rw [slice]
  exact length_take_le _ _

lemma fits_data (group : Group) (step : UInt64) (small : values.length ≤ maxTensorElements)
    (chunk_lt : chunk < chunkCount values.length) :
    Fits ⟨group.session, step, group.peers, values.length⟩ group.rank chunk
      (slice (chunk * chunkElements) (chunkLength values.length chunk) values) := by
  have few := group.few
  have member := group.member
  have chunks := chunkCount_le small
  have short : (slice (chunk * chunkElements)
      (chunkLength values.length chunk) values).length ≤ chunkElements :=
    le_trans slice_length_le (min_le_right _ _)
  simp only [maxParticipants, maxTensorElements, chunkElements] at *
  exact ⟨by simp only; omega, by simp only; omega, by omega, by omega, by omega⟩

lemma fits_ready (group : Group) (step : UInt64) (small : total ≤ maxTensorElements) :
    Fits ⟨group.session, step, group.peers, total⟩ group.rank 0 [] := by
  have few := group.few
  have member := group.member
  simp only [maxParticipants, maxTensorElements] at *
  exact ⟨by simp only; omega, by simp only; omega, by omega, by decide, by decide⟩

/-- The values of a packet. -/
abbrev Packet.words (packet : Packet) : Values :=
  readWords (packet.payload.length / 4) packet.payload

/-! ## Accepted datagrams -/

section Accepted
variable {fixed : ι → Group}
  {called : ι → List (UInt64 × Values)}
  {gathered : ι → List (UInt64 × Nat × Values)}
  {network : List Bytes} {i : ι} {step : UInt64} {total : Nat}
  {bytes : Bytes} {packet : Packet}
  (messages : ∀ message ∈ network, ∃ owner,
    Message (fixed owner) (called owner) (gathered owner) message)
  (authentic : ∀ size, (hmac (fixed i).psk (bytes.take size)).toList =
    bytes.drop size → bytes.take size ∈ network)
  (found : decode hmac (fixed i).psk bytes
    ⟨(fixed i).session, step, (fixed i).peers, total⟩ = some packet)
include messages authentic found

/-- A completion that a rank accepts comes from a member that has gathered
everything, and a chunk that it accepts is one of the sender's values. -/
lemma accepted : packet.rank < (fixed i).peers ∧ match packet.kind with
    | .ready => ∃ j inputs, Member fixed i packet.rank j ∧ (step, total, inputs) ∈ gathered j
    | .data => packet.chunk < chunkCount total ∧
      packet.words.length = chunkLength total packet.chunk ∧
      TrueChunk fixed called i step total packet.rank packet.chunk packet.words := by
  obtain ⟨size, genuine, tells⟩ := decode_sent found
  obtain ⟨owner, message⟩ := messages _ (authentic size genuine)
  generalize sent : bytes.take size = bytes' at message
  cases message with
  | ready inside small =>
    obtain ⟨envelope, kind, rank, rank_lt, _⟩ := tells _ _ _ _ _
      (fits_ready (fixed owner) _ small) sent
    rw [Envelope.mk.injEq] at envelope
    obtain ⟨session, rfl, peers, rfl⟩ := envelope
    rw [← kind]
    exact ⟨rank_lt, owner, _, ⟨session, peers, rank⟩, inside⟩
  | @data ownStep values chunk inside small chunk_lt =>
    obtain ⟨envelope, kind, rank, rank_lt, chunk_eq, payload, rest⟩ :=
      tells _ _ _ _ _ (fits_data (fixed owner) _ small chunk_lt) sent
    obtain ⟨chunk_lt, length⟩ := rest rfl
    rw [Envelope.mk.injEq] at envelope
    obtain ⟨session, rfl, peers, rfl⟩ := envelope
    have words : packet.words =
        slice (packet.chunk * chunkElements) (chunkLength values.length packet.chunk) values := by
      rw [Packet.words, payload, wordBytes_length, Nat.mul_div_cancel _ (by decide)]
      have read := readWords_wordBytes (slice (chunk * chunkElements)
        (chunkLength values.length chunk) values) []
      rw [append_nil, chunk_eq] at read
      rw [chunk_eq]
      exact read
    rw [← kind, words]
    rw [chunk_eq] at length
    exact ⟨rank_lt, chunk_lt, length, owner, values, ⟨session, peers, rank⟩, inside, rfl, rfl⟩

end Accepted

/-! ## The loop -/

/-- A group as it was configured, in some state. -/
structure Alike (group fixed : Group) : Prop where
  session : group.session = fixed.session
  rank : group.rank = fixed.rank
  peers : group.peers = fixed.peers
  psk : group.psk = fixed.psk

/-- The chunks of other ranks that are missing. -/
def missing (group : Group) (exchange : Exchange) : Finset (Nat × Nat) :=
  (((Finset.range group.peers).erase group.rank) ×ˢ
    Finset.range (chunkCount exchange.values.length)).filter fun slot =>
      exchange.seen.getD (slot.1 * chunkCount exchange.values.length + slot.2) false = false

/-- What holds of the variables of the loop. -/
structure Active (fixed : ι → Group) (called : ι → List (UInt64 × List Float32Bits))
    (gathered : ι → List (UInt64 × Nat × List Float32Bits)) (index : ι) (group : Group)
    (exchange : Exchange) : Prop where
  small : exchange.values.length ≤ maxTensorElements
  own : (group.step, exchange.values) ∈ called index
  inputs : exchange.inputs.length = group.peers * exchange.values.length
  seen : exchange.seen.length = group.peers * chunkCount exchange.values.length
  ready : exchange.ready.length = group.peers
  mine : slice (group.rank * exchange.values.length) exchange.values.length
    exchange.inputs = exchange.values
  chunks : ∀ rank < group.peers, ∀ chunk < chunkCount exchange.values.length, exchange.seen.getD
      (rank * chunkCount exchange.values.length + chunk) false = true →
    TrueChunk fixed called index group.step exchange.values.length rank chunk
      (slice (rank * exchange.values.length + chunk * chunkElements)
        (chunkLength exchange.values.length chunk) exchange.inputs)
  remaining : exchange.remaining = (missing group exchange).card
  others : ∀ rank, rank ≠ group.rank → exchange.ready.getD rank false = true →
    ∃ other inputs, Member fixed index rank other ∧
      (group.step, exchange.values.length, inputs) ∈ gathered other
  lingering : exchange.lingering = true → exchange.remaining = 0 ∧
    ∀ rank < group.peers, rank ≠ group.rank → exchange.ready.getD rank false = true
  sendChunk : exchange.sendChunk ≤ chunkCount exchange.values.length

lemma Gathered.of_active {fixed : ι → Group} {called : ι → List (UInt64 × Values)}
    {gathered : ι → List (UInt64 × Nat × Values)} {i : ι} {group : Group}
    {exchange : Exchange} (alike : Alike group (fixed i))
    (active : Active fixed called gathered i group exchange) (complete : exchange.remaining = 0) :
    Gathered fixed called i group.step exchange.values.length exchange.inputs where
  small := active.small
  length := by rw [active.inputs, alike.peers]
  own := ⟨_, active.own, rfl⟩
  chunks := by
    intro rank rank_lt chunk chunk_lt
    rw [← alike.peers] at rank_lt
    by_cases same : rank = group.rank
    · subst same
      refine ⟨i, exchange.values, ⟨rfl, rfl, alike.rank.symm⟩, active.own, rfl, ?_⟩
      have inside := chunk_inside chunk_lt
      have part : chunk * chunkElements + chunkLength exchange.values.length chunk ≤
          exchange.values.length := by
        rw [chunkLength]
        omega
      rw [← slice_slice part, active.mine]
    · rw [active.remaining, Finset.card_eq_zero, missing, Finset.filter_eq_empty_iff] at complete
      have here := complete (x := (rank, chunk)) (by
        simp [same, rank_lt, chunk_lt])
      exact active.chunks rank rank_lt chunk chunk_lt (Bool.not_eq_false _ ▸ here)

/-- Chunks of a table lie within it. -/
lemma chunk_end_le {peers : Nat} (rank_lt : rank < peers) (chunk_lt : chunk < chunkCount total) :
    rank * total + chunk * chunkElements + chunkLength total chunk ≤ peers * total := by
  have inside := chunk_inside chunk_lt
  calc rank * total + chunk * chunkElements + chunkLength total chunk
      ≤ rank * total + total := by rw [chunkLength]; omega
    _ = (rank + 1) * total := by rw [Nat.succ_mul]
    _ ≤ peers * total := Nat.mul_le_mul_right _ rank_lt

lemma chunks_apart (chunk_lt : chunk < chunkCount total) (chunk_lt' : chunk' < chunkCount total)
    (different : ¬ (rank = rank' ∧ chunk = chunk')) :
    rank * total + chunk * chunkElements + chunkLength total chunk ≤
        rank' * total + chunk' * chunkElements ∨
      rank' * total + chunk' * chunkElements + chunkLength total chunk' ≤
        rank * total + chunk * chunkElements := by
  rcases Nat.lt_trichotomy rank rank' with less | rfl | more
  · exact .inl (le_trans (chunk_end_le less chunk_lt) (Nat.le_add_right _ _))
  · rw [chunkLength, chunkLength]
    simp only [true_and, chunkElements] at different ⊢
    omega
  · exact .inr (le_trans (chunk_end_le more chunk_lt') (Nat.le_add_right _ _))

section Loop
variable {fixed : ι → Group} {called : ι → List (UInt64 × Values)}
  {gathered : ι → List (UInt64 × Nat × Values)} {i : ι} {group : Group} {exchange : Exchange}

lemma acceptData_values : (exchange.acceptData packet).values = exchange.values := by
  rw [Exchange.acceptData]
  split <;> rfl

section
variable (width : exchange.values.length = total)
  (inputs : exchange.inputs.length = group.peers * total)
  (seen : exchange.seen.length = group.peers * chunkCount total)
  (rank_lt : packet.rank < group.peers) (chunk_lt : packet.chunk < chunkCount total)
  (length : packet.words.length = chunkLength total packet.chunk)
  (unseen : exchange.seen.getD (packet.rank * chunkCount total + packet.chunk) false = false)
include width inputs seen rank_lt chunk_lt length unseen

/-- Behind a packet for a new slot, that slot is seen and holds the values of
the packet, and the others are as before. -/
lemma acceptData_new : (exchange.acceptData packet).inputs.length = group.peers * total ∧
    (exchange.acceptData packet).seen.length = group.peers * chunkCount total ∧
    ∀ rank, ∀ chunk < chunkCount total,
      (exchange.acceptData packet).seen.getD (rank * chunkCount total + chunk) false =
        (if packet.rank = rank ∧ packet.chunk = chunk then true
        else exchange.seen.getD (rank * chunkCount total + chunk) false) ∧
      slice (rank * total + chunk * chunkElements) (chunkLength total chunk)
          (exchange.acceptData packet).inputs =
        if packet.rank = rank ∧ packet.chunk = chunk then
          packet.words
        else slice (rank * total + chunk * chunkElements) (chunkLength total chunk)
          exchange.inputs := by
  have bound := chunk_end_le rank_lt chunk_lt
  rw [← inputs] at bound
  have inside := bound
  rw [← length] at inside
  rw [Exchange.acceptData, width, if_neg (by rw [unseen]; exact Bool.false_ne_true)]
  refine ⟨(length_splice inside).trans inputs, length_set.trans seen,
    fun rank chunk chunk_lt' => ⟨?_, ?_⟩⟩
  · rw [getD_set (by rw [seen]; exact table_lt rank_lt chunk_lt)]
    simp only [table_inj chunk_lt chunk_lt']
  · split
    next same =>
      obtain ⟨rfl, rfl⟩ := same
      exact slice_splice_self length bound
    next other =>
      have apart := chunks_apart chunk_lt chunk_lt' other
      rw [← length] at apart
      exact slice_splice_apart inside apart

/-- A chunk of another rank that has just been seen is missing no more. -/
lemma remaining_new (rank_ne : packet.rank ≠ group.rank)
    (counted : exchange.remaining = (missing group exchange).card) : 0 < exchange.remaining ∧
    (exchange.acceptData packet).remaining = (missing group (exchange.acceptData packet)).card := by
  have mem : (packet.rank, packet.chunk) ∈ missing group exchange := by
    simp only [missing, Finset.mem_filter, Finset.mem_product, Finset.mem_erase, Finset.mem_range,
      width]
    exact ⟨⟨⟨rank_ne, rank_lt⟩, chunk_lt⟩, unseen⟩
  obtain ⟨_, _, slots⟩ := acceptData_new width inputs seen rank_lt chunk_lt length unseen
  have erased : missing group (exchange.acceptData packet) =
      (missing group exchange).erase (packet.rank, packet.chunk) := by
    ext ⟨rank, chunk⟩
    simp only [missing, acceptData_values, width, Finset.mem_erase, Finset.mem_filter,
      Finset.mem_product, Finset.mem_range, ne_eq, Prod.mk.injEq]
    by_cases chunk_lt' : chunk < chunkCount total
    · rw [(slots rank chunk chunk_lt').1]
      by_cases same : packet.rank = rank ∧ packet.chunk = chunk
      · simp [same]
      · rw [if_neg same, eq_comm, and_comm]
        tauto
    · tauto
  rw [erased, Finset.card_erase_of_mem mem, ← counted, Exchange.acceptData, width,
    if_neg (by rw [unseen]; exact Bool.false_ne_true)]
  exact ⟨counted ▸ Finset.card_pos.mpr ⟨_, mem⟩, rfl⟩

end

section
variable (active : Active fixed called gathered i group exchange)
include active

lemma Active.acceptData (rank_ne : packet.rank ≠ group.rank) (rank_lt : packet.rank < group.peers)
    (chunk_lt : packet.chunk < chunkCount exchange.values.length)
    (length : packet.words.length = chunkLength exchange.values.length packet.chunk)
    (genuine : TrueChunk fixed called i group.step exchange.values.length packet.rank packet.chunk
      packet.words) :
    Active fixed called gathered i group (exchange.acceptData packet) := by
  by_cases old : exchange.seen.getD (packet.rank *
      chunkCount exchange.values.length + packet.chunk) false = true
  · rw [Exchange.acceptData, if_pos old]
    exact active
  have unseen := Bool.eq_false_iff.mpr old
  obtain ⟨inputs, seen, slots⟩ :=
    acceptData_new rfl active.inputs active.seen rank_lt chunk_lt length unseen
  obtain ⟨_, remaining⟩ := remaining_new rfl active.inputs active.seen rank_lt chunk_lt length
    unseen rank_ne active.remaining
  rw [Exchange.acceptData, if_neg old] at inputs seen slots remaining ⊢
  have inside := chunk_end_le rank_lt chunk_lt
  rw [← active.inputs, ← length] at inside
  exact {
    small := active.small
    own := active.own
    inputs := inputs
    seen := seen
    ready := active.ready
    mine := by
      -- the chunk of another rank lies before or behind this rank's values
      refine (slice_splice_apart inside ?_).trans active.mine
      rcases Nat.lt_or_gt_of_ne rank_ne with less | more
      · exact .inl (by rw [length]; exact chunk_end_le less chunk_lt)
      · have step : (group.rank + 1) * exchange.values.length ≤
            packet.rank * exchange.values.length :=
          Nat.mul_le_mul_right _ more
        rw [Nat.succ_mul] at step
        exact .inr (le_trans step (Nat.le_add_right _ _))
    chunks := by
      intro rank rank_lt' chunk chunk_lt' known
      obtain ⟨flag, part⟩ := slots rank chunk chunk_lt'
      rw [part]
      split
      next same =>
        obtain ⟨rfl, rfl⟩ := same
        exact genuine
      next other =>
        rw [flag, if_neg other] at known
        exact active.chunks rank rank_lt' chunk chunk_lt' known
    remaining := remaining
    others := active.others
    lingering := fun lingers => by
      obtain ⟨complete, all⟩ := active.lingering lingers
      exact ⟨by rw [complete], all⟩
    sendChunk := active.sendChunk }

lemma Active.setReady (rank_lt : rank < group.peers)
    (complete : rank ≠ group.rank → ∃ j inputs, Member fixed i rank j ∧
      (group.step, exchange.values.length, inputs) ∈ gathered j) :
    Active fixed called gathered i group
      { exchange with ready := exchange.ready.set rank true } := by
  have lt : rank < exchange.ready.length := by rwa [active.ready]
  exact { active with
    ready := by rw [length_set, active.ready]
    others := by
      intro j other_ne known
      rw [getD_set lt] at known
      split at known
      next same =>
        subst same
        exact complete other_ne
      next => exact active.others j other_ne known
    lingering := fun lingers => by
      obtain ⟨received, all⟩ := active.lingering lingers
      refine ⟨received, fun j other_lt other_ne => ?_⟩
      rw [getD_set lt]
      split
      next => rfl
      next => exact all j other_lt other_ne }

omit active in
/-- The completion of the call before may be repeated. -/
def Previous (gathered : List (UInt64 × Nat × List Float32Bits)) (group : Group) : Prop :=
  ∀ total, group.previousLen = some total → total ≤ maxTensorElements ∧
    ∃ inputs, (group.step - 1, total, inputs) ∈ gathered

section Receive
variable {network : List Bytes} (alike : Alike group (fixed i))
  (messages : ∀ message ∈ network, ∃ owner,
    Message (fixed owner) (called owner) (gathered owner) message)
  (previous : Previous (gathered i) group)
include alike messages previous

omit active in
/-- What a datagram does: the variables keep what holds of them, and an
acknowledgement that leaves is justified. -/
lemma Active.receive (active : Active fixed called gathered i group exchange) (ackDue : Bool)
    (authentic : ∀ size, (hmac group.psk (bytes.take size)).toList = bytes.drop size →
      bytes.take size ∈ network) :
    Active fixed called gathered i group (exchange.receive hmac group bytes ackDue).1 ∧
      (exchange.receive hmac group bytes ackDue).1.values = exchange.values ∧
      ∀ ack ∈ (exchange.receive hmac group bytes ackDue).2,
        Message (fixed i) (called i) (gathered i) ack := by
  have envelopes (step : UInt64) (total : Nat) :
      (⟨group.session, step, group.peers, total⟩ : Envelope) =
        ⟨(fixed i).session, step, (fixed i).peers, total⟩ := by
    rw [alike.session, alike.peers]
  rw [Exchange.receive]
  rw [alike.psk] at authentic ⊢
  cases found : decode hmac (fixed i).psk bytes (group.envelope exchange.values.length) with
  | some packet =>
    rw [Group.envelope, envelopes] at found
    obtain ⟨rank_lt, told⟩ := accepted messages authentic found
    cases kind : packet.kind with
    | ready =>
      rw [kind] at told
      simp only [kind, if_true]
      exact ⟨active.setReady (alike.peers ▸ rank_lt) fun _ => told, trivial, nofun⟩
    | data =>
      rw [kind] at told
      obtain ⟨chunk_lt, length, genuine⟩ := told
      simp only [kind, reduceCtorEq, if_false]
      by_cases other : packet.rank ≠ group.rank
      · simp only [if_pos other]
        refine ⟨active.acceptData other (alike.peers ▸ rank_lt) chunk_lt
          length genuine, acceptData_values, nofun⟩
      · simp only [if_neg other]
        exact ⟨active, trivial, nofun⟩
  | none =>
    cases length : group.previousLen with
    | none => exact ⟨active, rfl, nofun⟩
    | some total =>
      obtain ⟨small, inputs, complete⟩ := previous total length
      simp only
      split
      next =>
        refine ⟨active, rfl, fun ack mem => ?_⟩
        obtain rfl := List.mem_singleton.mp mem
        rw [Group.previous, envelopes, alike.rank]
        exact .ready complete small
      next => exact ⟨active, rfl, nofun⟩

omit active in
lemma Active.receiveAll {datagrams : List (Bytes × Bool)}
    (active : Active fixed called gathered i group exchange)
    (authentic : ∀ datagram ∈ datagrams, ∀ size, (hmac group.psk (datagram.1.take size)).toList =
        datagram.1.drop size → datagram.1.take size ∈ network) :
    Active fixed called gathered i group (exchange.receiveAll hmac group datagrams).1 ∧
      (exchange.receiveAll hmac group datagrams).1.values = exchange.values ∧
      ∀ ack ∈ (exchange.receiveAll hmac group datagrams).2,
        Message (fixed i) (called i) (gathered i) ack := by
  induction datagrams generalizing exchange with
  | nil => exact ⟨active, rfl, nofun⟩
  | cons datagram rest ih =>
    obtain ⟨bytes, ackDue⟩ := datagram
    obtain ⟨first, values, acks⟩ := active.receive alike messages previous
      ackDue (authentic _ mem_cons_self)
    obtain ⟨last, values', acks'⟩ := ih first fun datagram mem => authentic datagram
        (mem_cons_of_mem _ mem)
    exact ⟨last, values'.trans values, forall_mem_append.mpr ⟨acks, acks'⟩⟩

end Receive

lemma Active.refresh : Active fixed called gathered i group (exchange.refresh group) := by
  have lt : group.rank < exchange.ready.length := by
    rw [active.ready]
    exact group.member
  have others (rank : Nat) (rank_ne : rank ≠ group.rank) :
      (exchange.ready.set group.rank (exchange.remaining = 0)).getD rank
        false = exchange.ready.getD rank false := by
    rw [getD_set lt, if_neg rank_ne.symm]
  exact { active with
    ready := by
      rw [Exchange.refresh]
      exact (length_set ..).trans active.ready
    others := fun rank rank_ne known =>
      active.others rank rank_ne ((others rank rank_ne).symm.trans known)
    lingering := fun lingers => by
      rcases Bool.or_eq_true_iff.mp lingers with before | now
      · obtain ⟨complete, all⟩ := active.lingering before
        exact ⟨complete, fun rank rank_lt rank_ne =>
          (others rank rank_ne).trans (all rank rank_lt rank_ne)⟩
      · -- all flags are set, this rank's own among them
        have flags (rank : Nat) (rank_lt : rank < group.peers) :
            (exchange.ready.set group.rank (exchange.remaining = 0)).getD rank false = true := by
          have rank_lt' : rank < (exchange.ready.set group.rank
              (exchange.remaining = 0)).length := by
            rwa [length_set, active.ready]
          rw [getD_eq_getElem?_getD, List.getElem?_eq_getElem rank_lt', Option.getD_some]
          exact all_eq_true.mp now _ (getElem_mem rank_lt')
        refine ⟨?_, fun rank rank_lt _ => flags rank rank_lt⟩
        have own := flags group.rank group.member
        rw [getD_set lt, if_pos rfl] at own
        exact of_decide_eq_true own }

/-- A rank's own flag says whether it misses nothing. -/
lemma Active.remaining_of_refresh
    (flag : (exchange.refresh group).ready.getD group.rank false = true) :
    exchange.remaining = 0 := by
  have lt : group.rank < exchange.ready.length := by
    rw [active.ready]
    exact group.member
  rw [Exchange.refresh, getD_set lt, if_pos rfl] at flag
  exact of_decide_eq_true flag

omit active in
/-- Gathering more keeps what holds. -/
lemma Message.mono {fixed : Group} {called called' : List (UInt64 × Values)}
    {gathered gathered' : List (UInt64 × Nat × Values)}
    (message : Message fixed called gathered bytes) (calledMore : called ⊆ called')
    (gatheredMore : gathered ⊆ gathered') : Message fixed called' gathered' bytes := by
  cases message with
  | data inside small chunk_lt => exact .data (calledMore inside) small chunk_lt
  | ready inside small => exact .ready (gatheredMore inside) small

omit active in
lemma sendRange_le {clock : Clock}
    (small : exchange.sendChunk ≤ chunkCount exchange.values.length) :
    (exchange.sendRange clock).1 + (exchange.sendRange clock).2 ≤
      chunkCount exchange.values.length := by
  rw [Exchange.sendRange]
  split
  next => exact small
  next =>
    simp only
    split <;> omega

/-- What leaves in a round is justified. -/
lemma Active.outgoing (alike : Alike group (fixed i))
    {record : List (UInt64 × Nat × Values)}
    (flag : exchange.ready.getD group.rank false = true →
      ∃ inputs, (group.step, exchange.values.length, inputs) ∈ record)
    (clock : Clock) (justReady : Bool) :
    ∀ bytes ∈ exchange.outgoing group clock justReady,
      Message (fixed i) (called i) record bytes := by
  intro bytes mem
  rw [Exchange.outgoing] at mem
  simp only [Group.envelope, alike.session, alike.peers, alike.rank] at mem
  rcases mem_append.mp mem with ready | data
  · split at ready
    next allowed =>
      obtain rfl := List.mem_singleton.mp ready
      rw [← alike.rank] at allowed
      obtain ⟨inputs, complete⟩ := flag allowed.1
      exact .ready complete active.small
    next => cases ready
  · obtain ⟨place, place_lt, rfl⟩ := List.mem_map.mp data
    have bound : (exchange.sendRange clock).1 +
        (exchange.sendRange clock).2 ≤ chunkCount exchange.values.length :=
      sendRange_le active.sendChunk
    rw [mem_range] at place_lt
    exact .data active.own active.small (by omega)

end

end Loop

end Joshua.UdpReduce
