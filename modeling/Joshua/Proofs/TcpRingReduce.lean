/-
Module: Joshua.Proofs.TcpRingReduce
Purpose: Over links that deliver in order, every rank reads exactly the frames
  it expects, comes to hold every rank's input, and returns the fold of the
  inputs in ascending rank order.
Trusted boundary: none
-/
import Joshua.Foundation.Lockstep
import Joshua.Proofs.TcpRingCommit
import Mathlib.Algebra.Order.BigOperators.Group.Finset
import Mathlib.Data.Fintype.BigOperators
import Mathlib.Data.Fintype.Lattice

namespace Joshua.TcpRing
open Joshua.Foundation List
open Function (update update_self update_of_ne)

/-! ## Whose input is passed on -/

variable {peers round rank total chunk : Nat}

/-- A rank expects what its predecessor sends. -/
lemma sentOrigin_predecessor (rank : Nat) (early : round < peers) :
    sentOrigin peers (predecessor peers rank) round = receivedOrigin peers rank round := by
  have sends : sentOrigin peers (predecessor peers rank) round =
      (rank + peers - 1 + (peers - round)) % peers := by
    rw [sentOrigin, predecessor, Nat.add_sub_assoc (le_of_lt early), Nat.mod_add_mod]
  have expects : receivedOrigin peers rank round =
      (rank + peers - round + (peers - 1)) % peers := by
    rw [receivedOrigin, sentOrigin, Nat.add_sub_assoc (by omega : 1 ≤ peers), Nat.mod_add_mod]
  rw [sends, expects]
  congr 1
  omega

/-- What a rank gets in one round it sends in the next. -/
lemma receivedOrigin_eq_sent (rank : Nat) (early : round + 1 ≤ peers) :
    receivedOrigin peers rank round = sentOrigin peers rank (round + 1) := by
  rw [receivedOrigin, sentOrigin, sentOrigin,
    Nat.add_sub_assoc (by omega : 1 ≤ peers), Nat.mod_add_mod]
  have shifted : rank + peers - round + (peers - 1) = rank + peers - (round + 1) + peers := by omega
  rw [shifted, Nat.add_mod_right]

lemma sentOrigin_zero (mem : rank < peers) : sentOrigin peers rank 0 = rank := by
  rw [sentOrigin, Nat.sub_zero, Nat.add_mod_right, Nat.mod_eq_of_lt mem]

/-- Every other rank's input comes in some round. -/
lemma exists_round {j : Nat} (mem : rank < peers) (otherMember : j < peers)
    (differ : j ≠ rank) : ∃ round < peers - 1, receivedOrigin peers rank round = j := by
  by_cases before : j < rank
  · refine ⟨rank - j - 1, by omega, ?_⟩
    rw [receivedOrigin_eq_sent rank (by omega), sentOrigin]
    have place : rank + peers - (rank - j - 1 + 1) = j + peers := by omega
    rw [place, Nat.add_mod_right, Nat.mod_eq_of_lt otherMember]
  · refine ⟨rank + peers - j - 1, by omega, ?_⟩
    rw [receivedOrigin_eq_sent rank (by omega), sentOrigin]
    have place : rank + peers - (rank + peers - j - 1 + 1) = j := by omega
    rw [place, Nat.mod_eq_of_lt otherMember]

/-! ## The place of a chunk -/

/-- Where the transfer of a chunk stands. -/
lemma slots_data (round_lt : round < peers - 1) (chunk_lt : chunk < chunkCount total) :
    (slots peers total)[1 + (round * chunkCount total + chunk)]? = some (.data round chunk) := by
  rw [slots, if_neg (by omega), cons_append, add_comm 1, List.getElem?_cons_succ]
  have found : ((List.range (peers - 1)).flatMap fun round =>
      (List.range (chunkCount total)).map fun chunk => Slot.data round chunk)[
        round * chunkCount total + chunk]? = some (.data round chunk) := by
    rw [getElem?_flatMap_blocks _ (by simp) round chunk_lt, List.getElem?_range round_lt]
    simp [chunk_lt]
  obtain ⟨inside, _⟩ := List.getElem?_eq_some_iff.mp found
  rw [List.getElem?_append_left inside]
  exact found

lemma place_of_data {place : Nat} (found : (slots peers total)[place]? = some (.data round chunk)) :
    round < peers - 1 ∧ chunk < chunkCount total ∧
      place = 1 + (round * chunkCount total + chunk) := by
  obtain ⟨_, round_lt, chunk_lt⟩ := mem_slots (mem_of_getElem? found)
  obtain ⟨inside, _⟩ := List.getElem?_eq_some_iff.mp found
  exact ⟨round_lt, chunk_lt, (List.getElem?_inj inside
    (slots_nodup _ _)).mp (found.trans (slots_data round_lt chunk_lt).symm)⟩

/-- A chunk lies within its block. -/
lemma chunk_inside (chunk_lt : chunk < chunkCount total) : chunk * chunkElements < total := by
  rw [chunkCount, Nat.lt_div_iff_mul_lt (by decide)] at chunk_lt
  simp only [chunkElements] at chunk_lt ⊢
  omega

/-! ## What a rank holds -/

section Ring
variable {peers total : Nat} {groups : Fin peers → Group}
  {values : Fin peers → Values} {members : List Address}
  {sha256 : Bytes → Digest} {hmac : Bytes → Bytes → Digest}

/-- The ranks of one ring in the same step. -/
structure Ranked (groups : Fin peers → Group) (members : List Address) : Prop where
  members_eq : ∀ rank, (groups rank).peers = members
  count : members.length = peers
  rank : ∀ rank, (groups rank).rank = rank.val
  session : ∀ rank other, (groups rank).session = (groups other).session
  psk : ∀ rank other, (groups rank).psk = (groups other).psk
  step : ∀ rank other, (groups rank).step = (groups other).step

lemma Ranked.length (ranked : Ranked groups members) (rank : Fin peers) :
    (groups rank).peers.length = peers := by
  rw [ranked.members_eq rank, ranked.count]

variable {calls : Fin peers → Call} {inputs : Values} {done : Nat}
  {state : Links peers} {slot : Slot}

/-- In every round and chunk, a rank sends the frame its successor expects. -/
lemma header_before (ranked : Ranked groups members) (rank : Fin peers)
    (mem : slot ∈ slots peers total) :
    (groups (Links.before rank)).header sha256 ((groups (Links.before rank)).sendFrame total slot) =
      (groups rank).header sha256 ((groups rank).receiveFrame total slot) := by
  have frames : (groups (Links.before rank)).sendFrame total slot =
      (groups rank).receiveFrame total slot := by
    have bounds := (mem_slots mem).2
    cases slot with
    | hello =>
      rw [Group.sendFrame, Group.receiveFrame, ranked.rank, ranked.rank, ranked.length]
      rfl
    | data round chunk =>
      rw [Group.sendFrame, Group.receiveFrame, ranked.rank, ranked.rank,
        ranked.length, ranked.length,
        ← sentOrigin_predecessor rank.val (Nat.lt_of_lt_pred bounds.1)]
      rfl
    | ready round =>
      rw [Group.sendFrame, Group.receiveFrame, ranked.rank, ranked.rank,
        ranked.length, ranked.length,
        ← sentOrigin_predecessor rank.val (Nat.lt_of_lt_pred bounds)]
      rfl
  rw [frames, Group.header, Group.header, Group.membership, Group.membership,
    ranked.members_eq, ranked.members_eq, ranked.session (Links.before rank) rank,
    ranked.step (Links.before rank) rank]

/-- The positions a rank knows after some transfers: its own input, and the
chunks it got. -/
def Known (peers total : Nat) (rank done position : Nat) : Prop :=
  (rank * total ≤ position ∧ position < rank * total + total) ∨
  ∃ place < done, ∃ round chunk, (slots peers total)[place]? = some (.data round chunk) ∧
    receivedOrigin peers rank round * total + chunk * chunkElements ≤ position ∧
    position < receivedOrigin peers rank round * total +
      chunk * chunkElements + slotLength total (.data round chunk)

/-- What a rank knows is right. -/
structure Holds (values : Fin peers → List Float32Bits) (total : Nat)
    (rank done : Nat) (inputs : List Float32Bits) : Prop where
  length : inputs.length = peers * total
  known : ∀ position, Known peers total rank done position →
    inputs[position]? = (allInputs values)[position]?

variable {rank chunk : Nat} (lengths : ∀ rank, (values rank).length = total)

/-- The block of a rank lies within all inputs. -/
lemma block_le (total : Nat) (mem : rank < peers) : rank * total + total ≤ peers * total := by
  rw [← Nat.succ_mul]
  exact Nat.mul_le_mul_right total mem

/-- The chunk of a rank's input lies within all inputs. -/
lemma chunk_le {origin : Nat} (round : Nat) (mem : origin < peers)
    (chunk_lt : chunk < chunkCount total) : origin * total + chunk * chunkElements +
      slotLength total (.data round chunk) ≤ peers * total := by
  have block := block_le total mem
  have inside := chunk_inside chunk_lt
  simp only [slotLength]
  omega

include lengths in
/-- At the beginning a rank holds its own input. -/
lemma holds_start (rank : Fin peers) :
    Holds values total rank.val 0
      (splice (rank.val * total) (values rank) (List.replicate (peers * total) 0)) := by
  have inside : rank.val * total + (values rank).length ≤
      (List.replicate (peers * total) (0 : Float32Bits)).length := by
    rw [lengths, length_replicate]
    exact block_le total rank.isLt
  refine ⟨by rw [length_splice inside, length_replicate], ?_⟩
  rintro pos (⟨low, high⟩ | ⟨place, never, _⟩)
  · rw [getElem?_splice inside, lengths rank, if_pos ⟨low, high⟩]
    have place : pos - rank.val * total < total := by omega
    have whole := getElem?_allInputs lengths rank place
    rw [Nat.add_sub_cancel' low] at whole
    exact whole.symm
  · cases never

/-- What a rank passes on it knows. -/
lemma known_sent (mem : rank < peers) (slot : (slots peers total)[done]? = some (.data round chunk))
    {place : Nat} (lt : place < slotLength total (.data round chunk)) : Known peers total rank done
      (sentOrigin peers rank round * total + chunk * chunkElements + place) := by
  obtain ⟨round_lt, chunk_lt, done_eq⟩ := place_of_data slot
  have fits := chunk_inside chunk_lt
  cases round with
  | zero =>
    rw [sentOrigin_zero mem]
    simp only [slotLength] at lt
    exact .inl ⟨by omega, by omega⟩
  | succ round =>
    -- it came in the round before
    have early : round < peers - 1 := by omega
    refine .inr ⟨1 + (round * chunkCount total + chunk), ?_, round, chunk,
      slots_data early chunk_lt, ?_, ?_⟩
    · rw [done_eq, Nat.succ_mul]
      omega
    · rw [receivedOrigin_eq_sent rank (by omega)]
      omega
    · rw [receivedOrigin_eq_sent rank (by omega)]
      exact Nat.add_lt_add_left lt _

/-- A rank passes on the chunks of the true inputs. -/
lemma source_eq (ranked : Ranked groups members) (rank : Fin peers)
    (found : (slots peers total)[done]? = some slot)
    (holds : Holds values total rank.val done inputs) :
    (groups rank).source total inputs slot =
      (groups rank).source total (allInputs values) slot := by
  cases slot with
  | hello | ready round => rfl
  | data round chunk =>
    rw [Group.source, Group.source, ranked.rank, ranked.length]
    refine ext_getElem? fun place => ?_
    rw [getElem?_slice, getElem?_slice]
    split
    next inside => exact holds.known _ (known_sent rank.isLt found inside)
    next => rfl

include lengths in
/-- A rank keeps what it knows and learns the chunk it got. -/
lemma holds_store (ranked : Ranked groups members) (rank : Fin peers)
    (found : (slots peers total)[done]? = some slot)
    (holds : Holds values total rank.val done inputs) :
    Holds values total rank.val (done + 1)
      ((groups rank).store total inputs
        ((groups (Links.before rank)).source total (allInputs values) slot)
        slot) := by
  have longer : ∀ pos, Known peers total rank.val (done + 1) pos →
      Known peers total rank.val done pos ∨
      ∃ round chunk, slot = .data round chunk ∧ receivedOrigin peers rank.val round * total +
          chunk * chunkElements ≤ pos ∧
        pos < receivedOrigin peers rank.val round * total +
          chunk * chunkElements + slotLength total (.data round chunk) := by
    rintro pos (own | ⟨place, before, round, chunk, placed, low, high⟩)
    · exact .inl (.inl own)
    · rcases Nat.lt_succ_iff_lt_or_eq.mp before with earlier | rfl
      · exact .inl (.inr ⟨place, earlier, round, chunk, placed, low, high⟩)
      · rw [found] at placed
        cases placed
        exact .inr ⟨round, chunk, rfl, low, high⟩
  cases slot with
  | hello | ready round =>
    refine ⟨holds.length, fun pos known => holds.known pos ?_⟩
    exact (longer pos known).resolve_right (by rintro ⟨_, _, ⟨⟩, _⟩)
  | data round chunk =>
    obtain ⟨round_lt, chunk_lt, _⟩ := place_of_data found
    have mem : receivedOrigin peers rank.val round < peers := Nat.mod_lt _ (Fin.pos rank)
    have origin : sentOrigin peers (Links.before rank).val round =
        receivedOrigin peers rank.val round :=
      sentOrigin_predecessor rank.val (by omega)
    have whole := allInputs_length lengths
    have fits := chunk_le round mem chunk_lt
    rw [Group.store, Group.source, ranked.rank, ranked.rank, ranked.length, ranked.length, origin]
    generalize starts : receivedOrigin peers rank.val round * total +
      chunk * chunkElements = start at fits ⊢
    have size : (slice start (slotLength total (.data round chunk)) (allInputs values)).length =
        slotLength total (.data round chunk) := length_slice (fits.trans (le_of_eq whole.symm))
    have inside : start + (slice start (slotLength total (.data round chunk))
        (allInputs values)).length ≤ inputs.length := by
      rw [size, holds.length]
      exact fits
    refine ⟨by rw [length_splice inside, holds.length], fun pos known => ?_⟩
    rw [getElem?_splice inside, size]
    split
    next within => rw [getElem?_slice, if_pos (by omega), Nat.add_sub_cancel' within.1]
    next outside =>
      refine holds.known pos ((longer pos known).resolve_right ?_)
      rintro ⟨_, _, same, low, high⟩
      cases same
      rw [starts] at low high
      exact outside ⟨low, high⟩

include lengths

/-- After the data rounds a rank holds all inputs. -/
lemma holds_all (rank : Fin peers)
    (late : dataEnd peers total ≤ done) (holds : Holds values total rank.val done inputs) :
    inputs = allInputs values := by
  refine ext_getElem? fun pos => ?_
  by_cases lt : pos < peers * total
  · refine holds.known pos ?_
    -- the block and the chunk of the position
    have positive : 0 < total := by
      by_contra empty
      rw [Nat.eq_zero_of_not_pos empty, mul_zero] at lt
      cases lt
    have block : pos / total < peers := Nat.div_lt_of_lt_mul (by rwa [mul_comm])
    have split := Nat.div_add_mod pos total
    have rest := Nat.mod_lt pos positive
    rw [mul_comm] at split
    by_cases own : pos / total = rank.val
    · rw [own] at split
      exact .inl ⟨by omega, by omega⟩
    · obtain ⟨round, round_lt, origin⟩ := exists_round rank.isLt block own
      have chunk_lt : pos % total / chunkElements < chunkCount total := by
        rw [chunkCount, Nat.lt_div_iff_mul_lt (by decide)]
        have floor := Nat.div_mul_le_self (pos % total) chunkElements
        simp only [chunkElements] at floor ⊢
        omega
      have floor := Nat.div_mul_le_self (pos % total) chunkElements
      have ceiling := Nat.lt_div_mul_add (a := pos % total) (show 0 < chunkElements by decide)
      refine .inr ⟨_, ?_, round, _, slots_data round_lt chunk_lt, ?_, ?_⟩
      · have rounds : round * chunkCount total + chunkCount total ≤
            (peers - 1) * chunkCount total := by
          rw [← Nat.succ_mul]
          exact Nat.mul_le_mul_right _ round_lt
        rw [dataEnd, if_neg (by omega)] at late
        omega
      · rw [origin]
        omega
      · rw [origin, slotLength]
        omega
  · rw [List.getElem?_eq_none (by rw [holds.length]; omega),
      List.getElem?_eq_none (by rw [allInputs_length lengths]; omega)]

/-! ## The fold -/

/-- The fold in place, index by index. -/
lemma foldInputs_upTo (add : Float32Bits → Float32Bits → Float32Bits) (count : Nat)
    (few : count ≤ total) :
    let folded := (List.range count).foldl
      (fun inputs i => inputs.set i ((List.range peers).foldl
        (fun sum rank => add sum (inputs.getD (rank * total + i) 0)) 0))
      (allInputs values)
    folded.length = (allInputs values).length ∧ ∀ pos, folded[pos]? =
        if pos < count ∧ pos < (allInputs values).length then
          some (sumAt 0 add values pos)
        else (allInputs values)[pos]? := by
  induction count with
  | zero => exact ⟨rfl, fun pos => by simp⟩
  | succ count ih =>
    obtain ⟨size, places⟩ := ih (Nat.le_of_succ_le few)
    simp only [range_succ, foldl_append, foldl_cons, foldl_nil]
    -- the positions that are read have not been overwritten
    rw [foldl_range_eq_sumAt 0 add fun rank => by
      rw [places, if_neg (by omega), getElem?_allInputs lengths rank (Nat.lt_of_succ_le few)]]
    refine ⟨by rw [length_set, size], fun pos => ?_⟩
    rw [List.getElem?_set, size, places pos]
    by_cases here : count = pos
    · subst here
      by_cases within : count < (allInputs values).length <;> simp [within]
    · rw [if_neg here]
      have same : pos < count + 1 ↔ pos < count := by omega
      simp only [same]

/-- What a rank that holds all inputs returns. -/
lemma foldInputs_eq (add : Float32Bits → Float32Bits → Float32Bits) (positive : 0 < peers) :
    (Group.foldInputs add peers total (allInputs values)).take total =
      combine 0 add total values := by
  obtain ⟨_, places⟩ := foldInputs_upTo lengths add total le_rfl
  refine ext_getElem? fun pos => ?_
  rw [List.getElem?_take, combine_eq_map 0 add lengths]
  split
  next inside =>
    have room : total ≤ peers * total := Nat.le_mul_of_pos_left total positive
    rw [Group.foldInputs, places, if_pos ⟨inside, by
      rw [allInputs_length lengths]; omega⟩]
    simp [inside]
  next outside => simp [outside]

omit lengths

/-! ## Frames under way -/

/-- The frames a rank has written. -/
def Call.count (call : Call) : Nat :=
  call.done + if call.sent then 1 else 0

/-- The frame of a rank's transfer, with the true inputs. -/
def wireFrame (sha256 : List UInt8 → Digest) (hmac : List UInt8 → List UInt8 → Digest)
    (groups : Fin peers → Group) (values : Fin peers → List Float32Bits) (total : Nat)
    (rank : Fin peers) (done : Nat) : List UInt8 :=
  match (slots peers total)[done]? with
  | none => []
  | some slot =>
    (groups rank).encode sha256 hmac ((groups rank).sendFrame total slot)
      ((groups rank).source total (allInputs values) slot)

/-- A rank in its call. -/
structure OnCourse (values : Fin peers → List Float32Bits) (total : Nat)
    (rank : Fin peers) (call : Call) : Prop where
  values_eq : call.values = values rank
  bounded : call.count ≤ (slots peers total).length
  holds : Holds values total rank.val call.done call.inputs

/-- All ranks are in their calls, and what is under way to a rank are the
frames that it has not read of those its predecessor has written. -/
structure InOrder (sha256 : List UInt8 → Digest) (hmac : List UInt8 → List UInt8 → Digest)
    (groups : Fin peers → Group) (values : Fin peers → List Float32Bits) (total : Nat)
    (state : Links peers) (calls : Fin peers → Call) : Prop where
  calls_eq : ∀ rank, state.calls rank = .ok (calls rank)
  course : ∀ rank, OnCourse values total rank (calls rank)
  behind : ∀ rank, (calls rank).done ≤ (calls (Links.before rank)).count
  links : ∀ rank, state.links (Links.before rank) = (List.range' (calls rank).done
      ((calls (Links.before rank)).count - (calls rank).done)).map
        (wireFrame sha256 hmac groups values total (Links.before rank))

lemma before_injective {rank other : Fin peers}
    (same : Links.before rank = Links.before other) : rank = other := by
  have pos := Fin.pos rank
  have values := congrArg Fin.val same
  simp only [Links.before, predecessor] at values
  rw [Nat.add_sub_assoc pos, Nat.add_sub_assoc pos] at values
  have cancelled : Nat.ModEq peers rank.val other.val :=
    Nat.ModEq.add_right_cancel' (peers - 1) values
  rw [Nat.ModEq, Nat.mod_eq_of_lt rank.isLt, Nat.mod_eq_of_lt other.isLt] at cancelled
  exact Fin.ext cancelled

include lengths in
lemma source_length (ranked : Ranked groups members) (rank : Fin peers)
    (mem : slot ∈ slots peers total) :
    ((groups rank).source total (allInputs values) slot).length = slotLength total slot := by
  cases slot with
  | hello | ready round => rfl
  | data round chunk =>
    obtain ⟨_, _, chunk_lt⟩ := mem_slots mem
    rw [Group.source, length_slice]
    rw [allInputs_length lengths, ranked.length]
    exact chunk_le round (Nat.mod_lt _ (Fin.pos rank)) chunk_lt

/-- A rank that has not done all transfers has a next one. -/
lemma exists_slot (early : done < (slots peers total).length) :
    ∃ slot, (slots peers total)[done]? = some slot :=
  ⟨_, List.getElem?_eq_getElem early⟩

section Steps
variable {state : Links peers} {calls : Fin peers → Call}
  (ranked : Ranked groups members)
  (order : InOrder sha256 hmac groups values total state calls)
include order

variable {rank : Fin peers}

/-- The first frame under way to a rank that is behind its predecessor. -/
lemma InOrder.links_cons (early : (calls rank).done < (calls (Links.before rank)).count) :
    state.links (Links.before rank) =
      wireFrame sha256 hmac groups values total (Links.before rank) (calls rank).done ::
        (List.range' ((calls rank).done + 1)
          ((calls (Links.before rank)).count - ((calls rank).done + 1))).map
          (wireFrame sha256 hmac groups values total (Links.before rank)) := by
  rw [order.links rank, ← Nat.succ_sub_succ, Nat.succ_sub early, List.range'_succ, map_cons]

/-- A rank that writes: the frame joins what is under way. -/
lemma InOrder.afterWrite (unsent : (calls rank).sent = false)
    (early : (calls rank).done < (slots peers total).length) :
    InOrder sha256 hmac groups values total
      { calls := update state.calls rank (.ok { calls rank with sent := true })
        links := update state.links rank (state.links rank ++
          [wireFrame sha256 hmac groups values total rank (calls rank).done]) }
      (update calls rank { calls rank with sent := true }) := by
  have count : (calls rank).count = (calls rank).done := by simp [Call.count, unsent]
  have moved : ∀ j, let call := update calls rank { calls rank with sent := true } j
      call.done = (calls j).done ∧ call.count = (calls j).count + if j = rank then 1 else 0 := by
    intro j
    by_cases same : j = rank
    · subst same
      simp [Call.count, unsent]
    · simp [same]
  refine ⟨fun j => ?_, ?_, fun j => ?_, fun j => ?_⟩
  · rw [funext order.calls_eq]
    exact (Function.apply_update (fun _ => Except.ok) calls rank _ j).symm
  · have course := order.course rank
    exact (Function.forall_update_iff calls (OnCourse values total)).mpr
      ⟨⟨course.values_eq, early, course.holds⟩, fun j _ => order.course j⟩
  · rw [(moved j).1, (moved _).2]
    exact Nat.le_add_right_of_le (order.behind j)
  · rw [(moved j).1, (moved _).2]
    have behind := order.behind j
    by_cases receiver : Links.before j = rank
    · subst receiver
      have place : (calls (Links.before j)).count + 1 - (calls j).done =
          (calls (Links.before j)).count - (calls j).done + 1 := by
        omega
      rw [if_pos rfl, place, List.range'_1_concat, map_append]
      simp only [update_self]
      rw [order.links j, map_singleton, Nat.add_sub_cancel' behind, count]
    · rw [if_neg receiver, add_zero]
      simp only [update_of_ne receiver]
      exact order.links j

/-- A rank that reads: the first frame under way to it is taken. -/
lemma InOrder.afterRead (sent : (calls rank).sent = true)
    (early : (calls rank).done < (calls (Links.before rank)).count)
    (holds : Holds values total rank.val ((calls rank).done + 1) inputs) :
    InOrder sha256 hmac groups values total
      { calls := update state.calls rank (.ok { calls rank with
          inputs := inputs, done := (calls rank).done + 1, sent := false })
        links := update state.links (Links.before rank) (state.links (Links.before rank)).tail }
      (update calls rank { calls rank with
        inputs := inputs, done := (calls rank).done + 1, sent := false }) := by
  have moved : ∀ j, let call := update calls rank { calls rank with
        inputs := inputs, done := (calls rank).done + 1, sent := false } j
      call.done = (calls j).done + (if j = rank then 1 else 0) ∧ call.count = (calls j).count := by
    intro j
    by_cases same : j = rank
    · subst same
      simp [Call.count, sent]
    · simp [same]
  refine ⟨fun j => ?_, ?_, fun j => ?_, fun j => ?_⟩
  · rw [funext order.calls_eq]
    exact (Function.apply_update (fun _ => Except.ok) calls rank _ j).symm
  · have course := order.course rank
    have bounded := (moved rank).2
    rw [update_self] at bounded
    exact (Function.forall_update_iff calls (OnCourse values total)).mpr
      ⟨⟨course.values_eq, bounded ▸ course.bounded, holds⟩, fun j _ => order.course j⟩
  · rw [(moved j).1, (moved _).2]
    split
    next same =>
      subst same
      exact early
    next => exact order.behind j
  · rw [(moved j).1, (moved _).2]
    by_cases same : j = rank
    · subst same
      rw [if_pos rfl, order.links_cons early]
      simp only [update_self, tail_cons]
    · have differ : Links.before j ≠ Links.before rank :=
        fun collide => same (before_injective collide)
      rw [if_neg same, add_zero]
      simp only [update_of_ne differ]
      exact order.links j

include lengths

lemma InOrder.total_eq (rank : Fin peers) : (calls rank).values.length = total := by
  rw [(order.course rank).values_eq, lengths]

include ranked

/-- The frame a rank writes is the one of the true inputs. -/
lemma InOrder.transmit_eq (rank : Fin peers)
    (early : (calls rank).done < (slots peers total).length) :
    (groups rank).transmit sha256 hmac (calls rank) =
      some (wireFrame sha256 hmac groups values total rank (calls rank).done) := by
  obtain ⟨slot, found⟩ := exists_slot early
  rw [Group.transmit, Group.slot, order.total_eq lengths rank,
    ranked.length rank, found, wireFrame, found]
  simp only [Option.map_some]
  rw [source_eq ranked rank found (order.course rank).holds]

/-- A rank accepts the frame that its predecessor has for its transfer. -/
lemma InOrder.receive_eq (rank : Fin peers)
    (early : (calls rank).done < (slots peers total).length) :
    ∃ inputs, (groups rank).receive sha256 hmac (calls rank)
        (wireFrame sha256 hmac groups values total (Links.before rank) (calls rank).done) =
      .ok { calls rank with
        inputs := inputs, done := (calls rank).done + 1, sent := false } ∧
      Holds values total rank.val ((calls rank).done + 1) inputs := by
  obtain ⟨slot, found⟩ := exists_slot early
  have inside := mem_of_getElem? found
  have size := source_length lengths ranked (Links.before rank) inside
  have few : ((groups (Links.before rank)).source total (allInputs values)
      slot).length ≤ chunkElements := by
    rw [size]
    exact slotLength_le total slot
  have read : (groups rank).decode sha256 hmac ((groups (Links.before rank)).encode sha256 hmac
        ((groups (Links.before rank)).sendFrame total slot)
        ((groups (Links.before rank)).source total (allInputs values) slot))
      ((groups rank).receiveFrame total slot) _ = .ok _ :=
    decode_encode few (ranked.psk (Links.before rank) rank) (header_before ranked rank inside)
  rw [size] at read
  rw [Group.receive, Group.slot, order.total_eq lengths rank,
    ranked.length rank, found, wireFrame, found]
  simp only
  rw [read]
  exact ⟨_, rfl, holds_store lengths ranked rank found (order.course rank).holds⟩

/-- A step takes one rank one frame further and keeps the order. -/
lemma InOrder.step {next : Links peers} (step : Links.Step sha256 hmac groups state next) :
    ∃ rank call, InOrder sha256 hmac groups values total next (update calls rank call) ∧
      call.done + call.count = (calls rank).done + (calls rank).count + 1 := by
  cases step with
  | @write rank call frame active unsent present =>
    rw [order.calls_eq rank] at active
    cases active
    have early : (calls rank).done < (slots peers total).length := by
      obtain ⟨slot, found, _⟩ := Ring.transmit_eq_some present
      rw [order.total_eq lengths rank, ranked.length rank] at found
      exact (List.getElem?_eq_some_iff.mp found).1
    rw [order.transmit_eq lengths ranked rank early] at present
    cases present
    refine ⟨rank, _, order.afterWrite unsent early, ?_⟩
    simp [Call.count, unsent]
    omega
  | @read rank call bytes rest active sent arrived =>
    rw [order.calls_eq rank] at active
    cases active
    -- something is under way, and it is the frame of this transfer
    have links := order.links rank
    have early : (calls rank).done < (calls (Links.before rank)).count := by
      by_contra late
      rw [arrived, Nat.sub_eq_zero_of_le (not_lt.mp late)] at links
      cases links
    have first := (List.cons.inj (arrived.symm.trans (order.links_cons early))).1
    have bounded := (order.course (Links.before rank)).bounded
    obtain ⟨inputs, received, holds⟩ := order.receive_eq lengths ranked rank (by omega)
    have after := order.afterRead sent early holds
    rw [arrived, tail_cons] at after
    rw [first, received]
    refine ⟨rank, _, after, ?_⟩
    simp [Call.count, sent]
    omega

/-- Until all transfers are done, something can happen: the rank that is
furthest behind can go on. -/
lemma InOrder.progress : (∃ next, Links.Step sha256 hmac groups state next) ∨
      ∀ rank, (calls rank).done = (slots peers total).length := by
  by_contra stuck
  rw [not_or, not_exists] at stuck
  obtain ⟨noStep, unfinished⟩ := stuck
  obtain ⟨late, unfinished⟩ := not_forall.mp unfinished
  have : Nonempty (Fin peers) := ⟨late⟩
  obtain ⟨rank, least⟩ := Finite.exists_min fun rank => (calls rank).done
  have bound : ∀ j, (calls j).done ≤ (slots peers total).length :=
    fun j => le_trans (Nat.le_add_right _ _) (order.course j).bounded
  -- a rank with transfers left has written its frame
  have written : ∀ j, (calls j).done < (slots peers total).length → (calls j).sent = true := by
    intro j early
    cases sent : (calls j).sent with
    | true => rfl
    | false =>
      exact absurd (.write (order.calls_eq j) sent
        (order.transmit_eq lengths ranked j early)) (noStep _)
  have early : (calls rank).done < (slots peers total).length := by
    have one := least late
    have two := bound late
    omega
  -- nothing is under way to the rank that is furthest behind
  have even : (calls (Links.before rank)).count = (calls rank).done := by
    refine le_antisymm (not_lt.mp fun more => ?_) (order.behind rank)
    exact noStep _ (.read (order.calls_eq rank) (written rank early) (order.links_cons more))
  have least := least (Links.before rank)
  have below := bound (Links.before rank)
  rw [Call.count] at even
  rcases lt_or_ge (calls (Links.before rank)).done (slots peers total).length with before | after
  · rw [if_pos (written _ before)] at even
    omega
  · omega

end Steps

/-- The frames that have been written and read. -/
def effort (calls : Fin peers → Call) : Nat :=
  ∑ rank, ((calls rank).done + (calls rank).count)

lemma effort_update {rank : Fin peers} {call : Call}
    (more : call.done + call.count = (calls rank).done + (calls rank).count + 1) :
    effort (update calls rank call) = effort calls + 1 := by
  have others : ∀ j ∈ Finset.univ.erase rank, (update calls rank call j).done +
        (update calls rank call j).count =
      (calls j).done + (calls j).count := by
    intro j mem
    rw [update_of_ne (Finset.ne_of_mem_erase mem)]
  rw [effort, effort, ← Finset.add_sum_erase _ _ (Finset.mem_univ rank),
    ← Finset.add_sum_erase _ _ (Finset.mem_univ rank),
    Finset.sum_congr rfl others, update_self, more]
  omega

lemma InOrder.effort_le (order : InOrder sha256 hmac groups values total state calls) :
    effort calls ≤ peers * (2 * (slots peers total).length) := by
  have each : ∀ rank ∈ Finset.univ, (calls rank).done + (calls rank).count ≤
      2 * (slots peers total).length := by
    intro rank _
    have bounded := (order.course rank).bounded
    have less : (calls rank).done ≤ (calls rank).count := Nat.le_add_right _ _
    omega
  have whole := Finset.sum_le_card_nsmul _ _ _ each
  rw [Finset.card_univ, Fintype.card_fin] at whole
  exact whole

/-! ## The ring -/

/-- The ranks at the beginning of their calls. -/
def startLinks (calls : Fin peers → Call) : Links peers :=
  ⟨fun rank => .ok (calls rank), fun _ => []⟩

variable {fresh active : Fin peers → Group}

lemma ranked_begun (ranked : Ranked fresh members)
    (begun : ∀ rank, (fresh rank).begin (values rank) = .ok (active rank, calls rank))
    : Ranked active members := by
  have same : ∀ rank, active rank = { fresh rank with poisoned := true } :=
    fun rank => (Ring.begin_eq_ok (begun rank)).2.2.2.1
  constructor
  case count => exact ranked.count
  all_goals
    intros
    simp only [same]
    first
      | exact ranked.members_eq _
      | exact ranked.rank _
      | exact ranked.session _ _
      | exact ranked.psk _ _
      | exact ranked.step _ _

section
include lengths

lemma startLinks_inOrder (ranked : Ranked fresh members)
    (begun : ∀ rank, (fresh rank).begin (values rank) = .ok (active rank, calls rank)) :
    InOrder sha256 hmac active values total (startLinks calls) calls ∧ effort calls = 0 := by
  have start : ∀ rank, calls rank = {
      values := values rank
      inputs := splice (rank.val * total) (values rank) (List.replicate (peers * total) 0)
      done := 0
      sent := false } := by
    intro rank
    have call := (Ring.begin_eq_ok (begun rank)).2.2.2.2
    rw [ranked.rank, ranked.length, lengths] at call
    exact call
  refine ⟨⟨fun rank => rfl, fun rank => ?_, fun rank => ?_, fun rank => ?_⟩, ?_⟩
  · rw [start rank]
    exact ⟨rfl, Nat.zero_le _, holds_start lengths rank⟩
  · rw [start rank]
    exact Nat.zero_le _
  · rw [start rank, start (Links.before rank)]
    rfl
  · simp [effort, start, Call.count]

variable (ranked : Ranked groups members)
include ranked

/-- Along every run the order is kept and each step is one frame. -/
lemma run_inOrder
    (order : InOrder sha256 hmac groups values total (startLinks calls) calls)
    (idle : effort calls = 0) (run : Nat → Links peers) (start : run 0 = startLinks calls)
    (steps : Nat)
    (chain : ∀ time < steps, Links.Step sha256 hmac groups (run time) (run (time + 1))) :
    ∃ now, InOrder sha256 hmac groups values total (run steps) now ∧ effort now = steps := by
  induction steps with
  | zero =>
    rw [start]
    exact ⟨calls, order, idle⟩
  | succ steps ih =>
    obtain ⟨now, order, effort_eq⟩ := ih fun time before => chain time (Nat.lt_succ_of_lt before)
    obtain ⟨rank, call, after, more⟩ :=
      order.step lengths ranked (chain steps (Nat.lt_succ_self steps))
    exact ⟨_, after, by rw [effort_update more, effort_eq]⟩

lemma reachable_inOrder
    (order : InOrder sha256 hmac groups values total (startLinks calls) calls)
    (run : Relation.ReflTransGen (Links.Step sha256 hmac groups) (startLinks calls) state) :
    ∃ now, InOrder sha256 hmac groups values total state now := by
  induction run with
  | refl => exact ⟨calls, order⟩
  | tail _ step ih =>
    obtain ⟨now, order⟩ := ih
    obtain ⟨rank, call, after, _⟩ := order.step lengths ranked step
    exact ⟨_, after⟩

/-- What a rank returns whose transfers are all done. -/
lemma InOrder.finish_eq (add : Float32Bits → Float32Bits → Float32Bits)
    (order : InOrder sha256 hmac groups values total state calls) (rank : Fin peers)
    (done : (calls rank).done = (slots peers total).length) :
    ∃ group, (groups rank).finish add (calls rank) = some (combine 0 add total values, group) := by
  have late : dataEnd peers total ≤ (calls rank).done := by
    rw [done, slots_length]
    exact Nat.le_add_right _ _
  have inputs := holds_all lengths rank late (order.course rank).holds
  rw [Group.finish, ranked.length rank, order.total_eq lengths rank,
    if_pos done, inputs, foldInputs_eq lengths add (Fin.pos rank)]
  exact ⟨_, rfl⟩

end

/-- A ring of ranks that call with inputs of one length, over links that
deliver in order: each rank sends exactly the frames its successor expects;
in every interleaving each rank that has done its data rounds holds every
rank's input at that rank's place, and what it returns is the fold of the
inputs in ascending rank order; a run that cannot go on has returned at all
ranks, and there are no longer runs than the number of frames allows. -/
theorem ring_reduces (sha256 : List UInt8 → Digest) (hmac : List UInt8 → List UInt8 → Digest)
    (add : Float32Bits → Float32Bits → Float32Bits) (fresh active : Fin peers → Group)
    (calls : Fin peers → Call) (ranked : Ranked fresh members)
    (lengths : ∀ rank, (values rank).length = total)
    (begun : ∀ rank, (fresh rank).begin (values rank) = .ok (active rank, calls rank)) :
    (∀ rank, (slots peers total).map (fun slot =>
        (active (Links.before rank)).header sha256
          ((active (Links.before rank)).sendFrame total slot)) =
      (slots peers total).map fun slot =>
        (active rank).header sha256 ((active rank).receiveFrame total slot)) ∧
    (∀ state, Relation.ReflTransGen (Links.Step sha256 hmac active) (startLinks calls) state →
      (∀ rank, ∃ call, state.calls rank = .ok call ∧
        (dataEnd peers total ≤ call.done → ∀ other : Fin peers,
          slice (other.val * total) total call.inputs = values other) ∧
        ∀ result group, (active rank).finish add call = some (result, group) →
          result = combine 0 add total values) ∧
      ((∃ next, Links.Step sha256 hmac active state next) ∨
        ∀ rank, ∃ call group, state.calls rank = .ok call ∧ (active rank).finish add call =
            some (combine 0 add total values, group))) ∧
    ∀ (run : Nat → Links peers) (steps : Nat), run 0 = startLinks calls → (∀ time < steps,
        Links.Step sha256 hmac active (run time) (run (time + 1))) →
      steps ≤ peers * (2 * (slots peers total).length) := by
  have ranked := ranked_begun ranked begun
  obtain ⟨start, idle⟩ : InOrder sha256 hmac active values total
      (startLinks calls) calls ∧ effort calls = 0 :=
    startLinks_inOrder lengths ‹Ranked fresh members› begun
  refine ⟨fun rank => ?_, fun state run => ?_, fun run steps first chain => ?_⟩
  · exact map_congr_left fun slot inside => header_before ranked rank inside
  · obtain ⟨now, order⟩ := reachable_inOrder lengths ranked start run
    refine ⟨fun rank => ⟨now rank, order.calls_eq rank, fun late other => ?_,
      fun result group finished => ?_⟩, ?_⟩
    · rw [holds_all lengths rank late (order.course rank).holds]
      exact (slice_eq_iff (lengths other)).mpr fun place inside =>
        getElem?_allInputs lengths other inside
    · obtain ⟨done, _⟩ := Ring.finish_eq_some finished
      rw [ranked.length rank, order.total_eq lengths rank] at done
      obtain ⟨after, same⟩ := order.finish_eq lengths ranked add rank done
      rw [finished] at same
      exact congrArg Prod.fst (Option.some.inj same)
    · refine (order.progress lengths ranked).imp_right fun done rank => ?_
      obtain ⟨after, finished⟩ := order.finish_eq lengths ranked add rank (done rank)
      exact ⟨now rank, after, order.calls_eq rank, finished⟩
  · obtain ⟨now, order, effort_eq⟩ := run_inOrder lengths ranked start idle run first steps chain
    rw [← effort_eq]
    exact order.effort_le

/-- Two ranks with one value each; where a run of them ends, both have the
sum. -/
theorem ring_reduces_of_pair :
    let digest := fun _ : List UInt8 => (Vector.replicate 32 0 : Digest)
    let values : Fin 2 → List Float32Bits := fun rank => [5 + rank.val.toUInt32]
    ∃ calls : Fin 2 → Call, ∃ active : Fin 2 → Group,
      (∀ rank, (Ring.pair rank).begin (values rank) = .ok (active rank, calls rank)) ∧
      ∀ state, Relation.ReflTransGen
          (Links.Step digest (fun _ => digest) active) (startLinks calls)
          state →
        (∃ next, Links.Step digest (fun _ => digest) active state next) ∨
        ∀ rank, ∃ call group, state.calls rank = .ok call ∧
          (active rank).finish (· + ·) call = some ([11], group) := by
  intro digest values
  have begun (rank : Fin 2) : (Ring.pair rank).begin (values rank) =
      .ok (Ring.pairing rank, ⟨values rank, if rank = 0 then [5, 0] else [0, 6], 0, false⟩) := by
    match rank with
    | 0 | 1 => rfl
  have lengths : ∀ rank, (values rank).length = 1 := fun _ => rfl
  have whole := ring_reduces digest (fun _ => digest) (· + ·) Ring.pair Ring.pairing
    (fun rank => ⟨values rank, if rank = 0 then [5, 0] else [0, 6], 0, false⟩)
    ⟨fun _ => rfl, rfl, fun _ => rfl, fun _ _ => rfl, fun _ _ => rfl, fun _ _ => rfl⟩ lengths begun
  exact ⟨_, _, begun, fun state run => (whole.2.1 state run).2⟩

end Ring

end Joshua.TcpRing
