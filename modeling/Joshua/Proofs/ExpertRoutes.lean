/-
Module: Joshua.Proofs.ExpertRoutes
Purpose: A request that the placement admits fits its frame, is accepted by
  the owner of its experts, and is answered row by row; the bytes that are
  sent are read as what was sent. The routes of a batch: each goes to one
  owner, an owner's request is canonical, and the rows that come back by
  expert in route order give what the local dispatch gives.
Trusted boundary: none
-/
import Joshua.Model.ExpertLayer
import Joshua.Proofs.PipelineFrames
import Mathlib.Algebra.Order.BigOperators.Group.List
import Mathlib.Algebra.Order.Group.Nat

namespace Joshua.Experts
open Joshua.Foundation List

variable {hidden : Nat} {place : Placement hidden} {V : Type}

section
variable {msg : Message}

section

/-! ## Frames -/

lemma decimalWidth_mono {small large : Nat} (le : small ≤ large) :
    decimalWidth small ≤ decimalWidth large :=
  Nat.succ_le_succ (Nat.log_mono_right le)

private lemma le_max {number : Nat} (small : number < u64Limit) : number ≤ 2 ^ 64 - 1 :=
  Nat.le_sub_one_of_lt small

lemma RouteRow.width_le {row : RouteRow} (route : row.route < u64Limit)
    (expert : row.expert < u64Limit) :
    row.width ≤ rowWidth (2 ^ 64 - 1) (2 ^ 64 - 1) (2 ^ 64 - 1) (2 ^ 64 - 1) := by
  have routeWidth := decimalWidth_mono (le_max route)
  have sessionWidth := decimalWidth_mono (le_max row.row.session.toNat_lt)
  have tokenWidth := decimalWidth_mono (le_max row.row.token.toNat_lt)
  have expertWidth := decimalWidth_mono (le_max expert)
  simp only [RouteRow.width, rowWidth]
  omega

lemma sum_map_le {α : Type} {items : List α} {size : α → Nat} {bound : Nat}
    (each : ∀ item ∈ items, size item ≤ bound) : (items.map size).sum ≤ items.length * bound := by
  have bounded := sum_le_card_nsmul (items.map size) bound (forall_mem_map.mpr each)
  simpa using bounded

lemma envelopeWidth_le (identity : Digest) {forward : Nat}
    (small : forward < u64Limit) (decode : Bool) :
    envelopeWidth (identity.toList.map UInt8.toNat) forward decode ≤
      envelopeWidth (List.replicate 32 255) (2 ^ 64 - 1) false := by
  have digits : ((identity.toList.map UInt8.toNat).map decimalWidth).sum ≤
      32 * decimalWidth 255 := by
    have each : ∀ value ∈ identity.toList.map UInt8.toNat, decimalWidth value ≤ decimalWidth 255 :=
      forall_mem_map.mpr fun byte _ => decimalWidth_mono (Nat.le_of_lt_succ byte.toNat_lt)
    simpa using sum_map_le each
  have number := decimalWidth_mono (le_max small)
  have flag : (if decode then 4 else 5) ≤ 5 := by cases decode <;> decide
  have bytes : (identity.toList.map UInt8.toNat).length = 32 := by simp
  have widest : 32 • decimalWidth 255 = 32 * decimalWidth 255 := rfl
  simp only [envelopeWidth, bytes, map_replicate, sum_replicate,
    widest, length_replicate, Bool.false_eq_true, if_false]
  omega

/-- A message within the bounds of the placement. -/
structure Sendable (placement : Placement hidden) (message : Message) : Prop where
  few : message.rows.length ≤ placement.limits.routes
  sequence : message.forward < u64Limit
  small : ∀ row ∈ message.rows, row.route < u64Limit ∧ row.expert < u64Limit

variable {expert : Nat → Row V hidden → Row V hidden} {values : List (Row V hidden)} {owner : Nat}

/-- The reservation holds for whatever is sent. -/
lemma width_le_reservation (sendable : Sendable place msg) {count : Nat}
    (shape : count ≤ place.limits.routes * hidden) :
    4 + msg.width + count * 4 ≤ frameReservation hidden place.limits := by
  have envelope := envelopeWidth_le msg.identity sendable.sequence msg.decode
  have rows : (msg.rows.map RouteRow.width).sum ≤ msg.rows.length *
      rowWidth (2 ^ 64 - 1) (2 ^ 64 - 1) (2 ^ 64 - 1) (2 ^ 64 - 1) :=
    sum_map_le fun row mem => RouteRow.width_le
      (sendable.small row mem).1 (sendable.small row mem).2
  have payload := Nat.mul_le_mul_right 4 shape
  simp only [Message.width, frameReservation]
  generalize rowWidth (2 ^ 64 - 1) (2 ^ 64 - 1) (2 ^ 64 - 1) (2 ^ 64 - 1) = widest at rows ⊢
  have metadata : msg.rows.length * widest + msg.rows.length ≤
      place.limits.routes * (widest + 1) := by
    rw [← Nat.mul_succ]
    exact Nat.mul_le_mul_right _ sendable.few
  have reserved : 1 ≤ place.limits.routes * (widest + 1) :=
    Nat.mul_pos place.routes_some (Nat.succ_pos widest)
  generalize place.limits.routes * (widest + 1) = reservation at metadata reserved ⊢
  -- without rows there is no comma to save, and nothing is needed
  cases empty : msg.rows with
  | nil =>
    simp only [empty, map_nil, sum_nil, length_nil] at *
    omega
  | cons row rest =>
    simp only [empty, length_cons] at *
    omega

lemma frame_fits (sendable : Sendable place msg)
    (same : values.length = msg.rows.length) :
    (⟨msg, values⟩ : Frame V hidden).bytes ≤ place.limits.frameBytes := by
  have shape := Nat.mul_le_mul_right hidden (same ▸ sendable.few)
  exact (width_le_reservation sendable shape).trans place.frames_fit

variable [Scalar V]

lemma encode_eq_ok (sendable : Sendable place msg)
    (same : values.length = msg.rows.length) (finite : values.all finiteRow) :
    encode place msg values = .ok ⟨msg, values⟩ := by
  have fits := frame_fits sendable same
  rw [encode, if_neg (by simpa using finite), if_neg (not_lt.mpr fits)]

/-- What is sent is finite. -/
lemma finite_of_encode {frame : Frame V hidden}
    (sent : encode place msg values = .ok frame) :
    values.all finiteRow ∧ frame = ⟨msg, values⟩ := by
  rw [encode] at sent
  split_ifs at sent with infinite
  cases sent
  exact ⟨by simpa using infinite, rfl⟩

lemma decode_eq_ok (sendable : Sendable place msg)
    (same : values.length = msg.rows.length) (finite : values.all finiteRow) :
    decode place ⟨msg, values⟩ = .ok (msg, values) := by
  have fits := frame_fits sendable same
  rw [decode, if_neg (not_lt.mpr fits),
    if_neg (not_lt.mpr sendable.few), if_neg (fun differ => differ same),
    if_neg (by simpa using finite)]

/-! ## An owner's part -/

/-- The order of the rows of a request. -/
def RouteRow.Before (left right : RouteRow) : Prop :=
  left.expert < right.expert ∨ left.expert = right.expert ∧ left.route < right.route

/-- The rows of a request as an owner accepts them. -/
structure Canonical (placement : Placement hidden) (owner : Nat) (rows : List RouteRow) : Prop where
  sorted : rows.Pairwise RouteRow.Before
  distinct : (rows.map RouteRow.route).Nodup
  admitted : ∀ row ∈ rows, row.route < placement.limits.routes
  owned : ∀ row ∈ rows, placement.owners[row.expert]? = some owner
  few : rows.length ≤ placement.limits.routes
  positions : (rows.map RouteRow.row).dedup.length ≤ placement.limits.rows
  sessions : (rows.map fun row => row.row.session).dedup.length ≤ placement.limits.sessions

variable {rows : List RouteRow}

lemma checkRows_ok {routes : List Nat} {previous : Option RouteRow}
    (sorted : (previous.toList ++ rows).Pairwise RouteRow.Before)
    (nodup : (rows.map RouteRow.route).Nodup) (fresh : ∀ row ∈ rows, row.route ∉ routes)
    (admitted : ∀ row ∈ rows, row.route < place.limits.routes)
    (owned : ∀ row ∈ rows, place.owners[row.expert]? = some owner) :
    checkRows place owner rows routes previous = .ok () := by
  induction rows generalizing routes previous with
  | nil => rfl
  | cons row rest ih =>
    rw [forall_mem_cons] at fresh admitted owned
    rw [map_cons, nodup_cons] at nodup
    have follows : previous.all (fun prior =>
        prior.expert < row.expert || (prior.expert = row.expert && prior.route < row.route)) := by
      cases previous with
      | none => rfl
      | some prior =>
        have before := (pairwise_cons.mp sorted).1 row (by simp)
        simpa [RouteRow.Before] using before
    have later : ∀ other ∈ rest, other.route ∉ row.route :: routes := by
      intro other mem
      rw [mem_cons, not_or]
      refine ⟨?_, fresh.2 other mem⟩
      intro same
      apply nodup.1
      rw [← same]
      exact mem_map_of_mem mem
    rw [checkRows, if_neg (not_not_intro ⟨admitted.1, fresh.1⟩),
      if_neg (not_not_intro owned.1), if_neg (not_not_intro follows)]
    exact ih (pairwise_append.mp sorted).2.1 nodup.2 later admitted.2 owned.2

lemma validateRows_ok (canonical : Canonical place owner rows) :
    validateRows place owner rows = .ok () := by
  have checked : checkRows place owner rows [] none = .ok () :=
    checkRows_ok canonical.sorted canonical.distinct
      (fun _ _ => not_mem_nil) canonical.admitted canonical.owned
  rw [validateRows, if_neg (not_lt.mpr canonical.few), checked]
  exact if_pos ⟨canonical.positions, canonical.sessions⟩

omit [Scalar V] in
lemma runExpert_owned {i : Nat} (owned : place.owners[i]? = some owner)
    (block : List (Row V hidden)) :
    runExpert (ownedExperts place owner expert) i block = .ok (block.map (expert i)) := by
  rw [runExpert, ownedExperts, if_pos owned]

omit [Scalar V] in
/-- A run of one expert is answered row by row. -/
lemma answerRun_eq {pairs : List (RouteRow × Row V hidden)}
    (owned : ∀ pair ∈ pairs, place.owners[pair.1.expert]? = some owner)
    {run : List (RouteRow × Row V hidden)}
    (mem : run ∈ pairs.splitBy fun left right => left.1.expert == right.1.expert) :
    answerRun (ownedExperts place owner expert) run =
      .ok (run.map fun pair => expert pair.1.expert pair.2) := by
  cases run with
  | nil => rfl
  | cons first rest =>
    have one : ∀ pair ∈ first :: rest, pair.1.expert = first.1.expert := key_eq_of_mem_splitBy mem
    have inside : first ∈ pairs := by
      rw [← flatten_splitBy (fun left right : RouteRow × Row V hidden =>
          left.1.expert == right.1.expert) pairs]
      exact mem_flatten_of_mem mem mem_cons_self
    obtain ⟨row, value⟩ := first
    refine (runExpert_owned (owned _ inside) _).trans ?_
    rw [map_map]
    refine congrArg Except.ok (map_congr_left ?_)
    intro pair here
    rw [one pair here]
    rfl

variable {activation : RouteRow → Row V hidden} {request : Message}
omit [Scalar V] in
/-- An owner answers with each row's expert at the row's activation. -/
lemma executeRows_eq [DecidableEq V]
    (owned : ∀ row ∈ request.rows, place.owners[row.expert]? = some owner)
    (pos : request.decode →
      ∀ row ∈ request.rows, ∀ j ∈ request.rows, activation row = activation j) :
    executeRows (ownedExperts place owner expert) request (request.rows.map activation) =
      .ok (request.rows.map fun row => expert row.expert (activation row)) := by
  obtain ⟨identity, forward, decode, rows⟩ := request
  dsimp only at owned pos ⊢
  cases decode with
  | true =>
    cases rows with
    | nil => rfl
    | cons first rest =>
      have common : ∀ row ∈ first :: rest, activation row = activation first := fun row mem =>
        pos rfl row mem first mem_cons_self
      have same : ((first :: rest).map activation).all (· = activation first) := by
        rw [all_map, all_eq_true]
        intro row mem
        exact decide_eq_true (common row mem)
      have ran : (first :: rest).mapM (fun row =>
          runExpert (ownedExperts place owner expert) row.expert [activation first]) =
          .ok ((first :: rest).map fun row => [expert row.expert (activation row)]) := by
        refine mapM_eq_ok_map ?_
        intro row mem
        rw [runExpert_owned (owned row mem), common row mem]
        rfl
      rw [map_cons] at same ⊢
      rw [executeRows]
      · rw [if_pos same, ran]
        refine congrArg Except.ok ?_
        rw [← flatMap_def, map_eq_flatMap]
      · rfl
  | false =>
    have ownedPairs : ∀ pair ∈ rows.map fun row => (row, activation row),
        place.owners[pair.1.expert]? = some owner := forall_mem_map.mpr owned
    rw [executeRows]
    · dsimp only
      rw [zip_map_self, mapM_eq_ok_map fun run mem => answerRun_eq ownedPairs mem]
      refine congrArg Except.ok ?_
      rw [flatten_map_splitBy, map_map]
      rfl
    · intro _ _ decoding
      cases decoding

/-- The round of an owner: whether the answer can be sent is all that is left
open. -/
lemma serveOne_eq_encode [DecidableEq V] (sendable : Sendable place request)
    (canonical : Canonical place owner request.rows)
    (known : request.identity = place.identity)
    (finite : (request.rows.map activation).all finiteRow)
    (onePosition : request.decode → (request.rows.map RouteRow.row).dedup.length ≤ 1)
    (pos : request.decode →
      ∀ row ∈ request.rows, ∀ j ∈ request.rows, activation row = activation j) :
    serveOne place owner (ownedExperts place owner expert)
        request.forward ⟨request, request.rows.map activation⟩ =
      encode place request (request.rows.map fun row => expert row.expert (activation row)) := by
  have received := decode_eq_ok sendable (by rw [length_map]) finite
  have single : ¬ (request.decode ∧ 1 < (request.rows.map RouteRow.row).dedup.length) := by
    rintro ⟨decoding, several⟩
    exact not_lt.mpr (onePosition decoding) several
  rw [serveOne, received]
  dsimp only [bind, Except.bind]
  rw [if_neg (not_not_intro ⟨known, rfl⟩), validateRows_ok canonical]
  dsimp only
  rw [if_neg single, if_neg (by simp), executeRows_eq canonical.owned pos]

end

/-! ## How long JSON is -/

@[simp]
lemma length_decimal (number : Nat) : (decimal number).length = decimalWidth number := by
  rw [decimal, length_map]
  have below : number < 10 ^ (Nat.toDigits 10 number).length :=
    (Nat.length_toDigits_le_iff (by decide) (length_pos_of_ne_nil Nat.toDigits_ne_nil)).mp le_rfl
  apply le_antisymm
  · apply (Nat.length_toDigits_le_iff (by decide) (Nat.succ_pos _)).mpr
    exact Nat.lt_pow_succ_log_self (by decide) number
  · exact Nat.log_lt_of_lt_pow' (by simp) below

@[simp]
lemma length_ascii (text : String) : (ascii text).length = text.length := by
  rw [ascii, length_map, String.length_toList]

@[simp]
lemma length_commas (items : List Bytes) :
    (commas items).length = (items.map length).sum + (items.length - 1) := by
  induction items with
  | nil => rfl
  | cons item rest ih =>
    cases rest with
    | nil => simp [commas]
    | cons next rest =>
      have step : commas (item :: next :: rest) = item ++ ascii "," ++ commas (next :: rest) := by
        simp [commas, intercalate]
      rw [step]
      simp only [length_append, ih, map_cons, sum_cons, length_cons]
      have comma : (ascii ",").length = 1 := rfl
      omega

@[simp]
lemma RouteRow.length_json (row : RouteRow) : row.json.length = row.width := by
  simp only [RouteRow.json, length_append, length_ascii, length_decimal]
  rfl

@[simp]
lemma Message.length_json (msg : Message) : msg.json.length = msg.width := by
  have flag : (if msg.decode then "true" else "false").length = if msg.decode then 4 else 5 := by
    cases msg.decode <;> rfl
  have digits : length ∘ (fun byte : UInt8 => decimal byte.toNat) = decimalWidth ∘ UInt8.toNat :=
    funext fun byte => length_decimal byte.toNat
  have widths : length ∘ RouteRow.json = RouteRow.width := funext RouteRow.length_json
  have brackets : ",\"rows\":[]\x7d".length = ",\"rows\":[".length + "]\x7d".length := rfl
  simp only [Message.json, length_append, length_ascii, length_decimal, length_commas, flag,
    map_map, digits, widths, length_map, Message.width, envelopeWidth, brackets]
  omega

/-! ## Frames -/

variable {fromSlice : Bytes → Option Message} {values : Values} {frame : Bytes}

lemma encodeBytes_eq_ok : encodeBytes place msg values = .ok frame ↔
    values.all Float32Bits.isFinite ∧ msg.width + values.length * 4 + 4 < u64Limit ∧
      msg.width + values.length * 4 + 4 ≤ place.limits.frameBytes ∧
      frame = leBytes 4 msg.width ++ msg.json ++ Pipeline.valueBytes values := by
  simp only [encodeBytes, Message.length_json]
  constructor
  · intro sent
    split_ifs at sent with infinite
    cases sent
    exact ⟨by simpa using infinite, by omega, by omega, rfl⟩
  · rintro ⟨finite, small, bound, rfl⟩
    rw [if_neg (by simpa using finite), if_neg (by omega), if_neg (by omega), if_neg (by omega)]
    rfl

/-- The parts that a frame is read in. -/
lemma decodeBytes_parts (small : msg.width < 256 ^ 4) (whole : frame =
      leBytes 4 msg.width ++ msg.json ++ Pipeline.valueBytes values) :
    leValue (frame.take 4) = msg.width ∧ (frame.drop 4).take msg.width = msg.json ∧
      frame.drop (4 + msg.width) = Pipeline.valueBytes values ∧
      frame.length = 4 + msg.width + values.length * 4 := by
  have header : (leBytes 4 msg.width ++ msg.json).length = 4 + msg.width := by
    rw [length_append, leBytes_length, Message.length_json]
  subst whole
  refine ⟨?_, ?_, drop_left' header, ?_⟩
  · rw [append_assoc, take_left' (leBytes_length 4 _), leValue_leBytes small]
  · rw [append_assoc, drop_left' (leBytes_length 4 _), take_left' msg.length_json]
  · rw [length_append, header, Pipeline.valueBytes_length]

/-- A frame within the bounds, with the payload of its rows, is read. -/
lemma decodeBytes_eq_ok (validated : place.limits.frameBytes ≤ 16 * 1024 * 1024)
    (bound : 4 + msg.width + values.length * 4 ≤ place.limits.frameBytes)
    (few : msg.rows.length ≤ place.limits.routes)
    (shape : values.length = msg.rows.length * hidden) (finite : values.all Float32Bits.isFinite)
    (reads : fromSlice msg.json = some msg) :
    decodeBytes fromSlice place (leBytes 4 msg.width ++ msg.json ++ Pipeline.valueBytes values) =
      .ok (msg, values) := by
  have limit : 16 * 1024 * 1024 < 256 ^ 4 ∧ 256 ^ 4 < u64Limit := by decide
  obtain ⟨header, json, payload, size⟩ := decodeBytes_parts (by omega)
    (rfl : leBytes 4 msg.width ++ msg.json ++ Pipeline.valueBytes values = _)
  have length : (Pipeline.valueBytes values).length = msg.rows.length * hidden * 4 := by
    rw [Pipeline.valueBytes_length, shape]
  rw [decodeBytes, if_neg (by omega)]
  simp only [header, json, payload, reads, length, Pipeline.readValues_valueBytes, finite]
  rw [if_neg (by omega), if_neg (by omega), if_neg (by rw [← shape]; omega)]
  simp

/-- A message with at most `routes` rows and any numbers of their types fits
the reservation with its payload, so that finite values are sent; and what is
sent with the payload of its rows is read again.  The frame bound is what
`Limits::validate` admits. -/
theorem expert_frames_round_trip (placement : Placement hidden)
    (validated : placement.limits.frameBytes ≤ 16 * 1024 * 1024) (message : Message)
    (values : List Float32Bits) (few : message.rows.length ≤ placement.limits.routes)
    (reads : fromSlice message.json = some message) :
    (message.forward < u64Limit →
      (∀ row ∈ message.rows, row.route < u64Limit ∧ row.expert < u64Limit) →
      values.length ≤ placement.limits.routes * hidden → values.all Float32Bits.isFinite →
      ∃ frame, encodeBytes placement message values = .ok frame ∧
        frame.length ≤ frameReservation hidden placement.limits) ∧
    (values.length = message.rows.length * hidden → ∀ frame,
      encodeBytes placement message values = .ok frame →
      decodeBytes fromSlice placement frame = .ok (message, values)) := by
  have limit : 16 * 1024 * 1024 < 256 ^ 4 ∧ 256 ^ 4 < u64Limit := by decide
  constructor
  · intro sequence small shape finite
    have fits := width_le_reservation ⟨few, sequence, small⟩ shape
    have admitted := fits.trans placement.frames_fit
    refine ⟨_, encodeBytes_eq_ok.mpr ⟨finite, by omega, by omega, rfl⟩, ?_⟩
    have width : message.width < 256 ^ 4 := by omega
    exact (decodeBytes_parts width rfl).2.2.2.trans_le fits
  · intro shape frame sent
    obtain ⟨finite, _, bound, rfl⟩ := encodeBytes_eq_ok.mp sent
    exact decodeBytes_eq_ok validated (by omega) few shape finite reads

/-- Two experts on two owners. -/
def pairPlacement : Placement 2 where
  identity := Vector.replicate 32 255
  owners := [0, 1]
  limits := ⟨2, 2, 2, 4096⟩
  hidden_some := Nat.zero_lt_two
  experts_some := by decide
  experts_few := by decide
  routes_some := by decide
  routes_few := by decide
  frames_fit := by decide +kernel

/-- What `serde_json` reads from the text of a message. -/
def readsBack (message : Message) (bytes : List UInt8) : Option Message :=
  if bytes = message.json then some message else none

/-- A message with as many rows as the placement takes and the largest
numbers. -/
def widestMessage : Message :=
  ⟨Vector.replicate 32 255, 2 ^ 64 - 1, false, List.replicate 2
    ⟨2 ^ 64 - 1, ⟨0xFFFFFFFFFFFFFFFF, 0xFFFFFFFFFFFFFFFF⟩, 2 ^ 64 - 1⟩⟩

theorem expert_frames_round_trip_of_widest :
    let values : List Float32Bits := [0x3F800000, 0x7F7FFFFF, 0xFF7FFFFF, 1]
    ∃ frame, encodeBytes pairPlacement widestMessage values = .ok frame ∧
      frame.length ≤ frameReservation 2 pairPlacement.limits ∧
      decodeBytes (readsBack widestMessage) pairPlacement frame = .ok (widestMessage, values) := by
  intro values
  have both := @expert_frames_round_trip _ (readsBack widestMessage) pairPlacement
    (by decide) widestMessage values (by decide) (if_pos rfl)
  obtain ⟨frame, sent, fits⟩ := both.1 (by decide) (by decide) (by decide) (by decide)
  exact ⟨frame, sent, fits, both.2 rfl frame sent⟩

/-- `encode` does not count the values: one row goes with a single value, and
the frame is refused. -/
theorem stray_value_refused :
    let message : Message := ⟨Vector.replicate 32 255, 0, true, [⟨0, ⟨7, 3⟩, 1⟩]⟩
    ∃ frame, encodeBytes pairPlacement message [0x3F800000] = .ok frame ∧
      decodeBytes (readsBack message) pairPlacement frame = .error .payloadShape := by
  intro message
  refine ⟨leBytes 4 message.width ++ message.json ++ Pipeline.valueBytes [0x3F800000], ?_, ?_⟩
  · decide +kernel
  · decide +kernel

/-! ## Frames of rows -/

section Rows
variable [Scalar Float32Bits] {rows : List (Row Float32Bits hidden)}
  (finite : ∀ value : Float32Bits, Scalar.isFinite value = value.isFinite)
  (validated : place.limits.frameBytes ≤ 16 * 1024 * 1024)
include finite validated

omit validated finite [Scalar Float32Bits] in
/-- The size of a frame of rows. -/
lemma bytes_rows : (⟨msg, rows⟩ : Frame Float32Bits hidden).bytes =
    4 + msg.width + (rows.flatMap Vector.toList).length * 4 := by
  simp [Frame.bytes, length_flatMap]

omit validated in
lemma all_finite_flatMap : (rows.flatMap Vector.toList).all Float32Bits.isFinite =
    rows.all finiteRow := by
  rw [all_flatMap, ← funext finite]
  rfl

/-- What is sent of rows of words is sent in their bytes, and is refused
otherwise. -/
lemma encodeBytes_rows : encodeBytes place msg (rows.flatMap Vector.toList) = .ok frame ↔
    encode place msg rows = .ok ⟨msg, rows⟩ ∧ frame = leBytes 4 msg.width ++ msg.json ++
      Pipeline.valueBytes (rows.flatMap Vector.toList) := by
  have limit : 16 * 1024 * 1024 < u64Limit := by decide
  rw [encodeBytes_eq_ok, all_finite_flatMap finite, encode, bytes_rows]
  constructor
  · rintro ⟨whole, _, bound, spelled⟩
    rw [if_neg (by simpa using whole), if_neg (by omega)]
    exact ⟨rfl, spelled⟩
  · rintro ⟨sent, spelled⟩
    split_ifs at sent with broken long
    exact ⟨by simpa using broken, by omega, by omega, spelled⟩

/-- What is read of a frame of rows is read from its bytes. -/
lemma decodeBytes_rows (reads : fromSlice msg.json = some msg)
    (read : decode place ⟨msg, rows⟩ = .ok (msg, rows)) :
    decodeBytes fromSlice place (leBytes 4 msg.width ++ msg.json ++
      Pipeline.valueBytes (rows.flatMap Vector.toList)) =
        .ok (msg, rows.flatMap Vector.toList) := by
  rw [decode, bytes_rows] at read
  split_ifs at read with long many shape broken
  refine decodeBytes_eq_ok validated (by omega) (not_lt.mp many) ?_ ?_ reads
  · simpa [length_flatMap] using .inl (not_not.mp shape)
  · rw [all_finite_flatMap finite]
    simpa using broken

end Rows

end

variable {batch : Batch V hidden} {routes : List OwnedRoute}

section

/-! ## What is checked -/

/-- A batch within the limits of the placement, with tables of its shape. -/
structure Admitted [Scalar V] (placement : Placement hidden) (batch : Batch V hidden) : Prop where
  filled : batch.rows ≠ []
  few : batch.rows.length ≤ placement.limits.rows
  distinct : batch.rows.Nodup
  sessions : (batch.rows.map RowId.session).dedup.length ≤ placement.limits.sessions
  input : batch.input.length = batch.rows.length
  ids : batch.ids.length = batch.rows.length * batch.selected
  selected : 0 < batch.selected
  routes : batch.ids.length ≤ placement.limits.routes
  weights : batch.weights.length = batch.ids.length
  finite : batch.weights.all Scalar.isFinite

lemma checkBatch_eq_ok [Scalar V] : checkBatch place batch = .ok () ↔ Admitted place batch := by
  constructor
  · intro checked
    rw [checkBatch] at checked
    split_ifs at checked with rows distinct sessions input tables finite
    rw [not_not] at distinct input
    exact
      { filled := rows.1
        few := rows.2
        distinct := dedup_eq_self.mp ((dedup_sublist _).eq_of_length distinct)
        sessions := not_lt.mp sessions
        input := input
        ids := tables.1
        selected := tables.2.1
        routes := tables.2.2.1
        weights := tables.2.2.2
        finite := by simpa using finite }
  · intro admitted
    have distinct : batch.rows.dedup.length = batch.rows.length := by rw [admitted.distinct.dedup]
    rw [checkBatch, if_neg (not_not_intro ⟨admitted.filled, admitted.few⟩),
      if_neg (not_not_intro distinct), if_neg (not_lt.mpr admitted.sessions),
      if_neg (not_not_intro admitted.input),
      if_neg (not_not_intro ⟨admitted.ids, admitted.selected, admitted.routes, admitted.weights⟩),
      if_neg (by simpa using admitted.finite)]

/-! ## Routes and their owners -/

/-- The routes of a batch, with their owners. -/
structure Routed (placement : Placement hidden) (batch : Batch V hidden)
    (routes : List OwnedRoute) : Prop where
  experts : routes.map (fun route => route.row.expert) = batch.ids
  numbers : routes.map (fun route => route.row.route) = List.range batch.ids.length
  owners : ∀ route ∈ routes, placement.owners[route.row.expert]? = some route.owner
  names : ∀ route ∈ routes, batch.rows[route.row.route / batch.selected]? = some route.row.row

variable {expert owner : Nat}

lemma ownedRoute_eq_ok {number : Nat} {route : OwnedRoute}
    (named : ownedRoute place batch expert number = .ok route) :
    route.row.expert = expert ∧ route.row.route = number ∧
      place.owners[expert]? = some route.owner ∧
      batch.rows[number / batch.selected]? = some route.row.row := by
  rw [ownedRoute] at named
  split at named
  · rename_i owner row ownerFound rowFound
    cases named
    exact ⟨rfl, rfl, ownerFound, rowFound⟩
  · cases named

lemma routed_of_ownedRoutes (named : ownedRoutes place batch = .ok routes) :
    Routed place batch routes := by
  have whole : ∀ route ∈ routes, place.owners[route.row.expert]? = some route.owner ∧
        batch.rows[route.row.route / batch.selected]? = some route.row.row := by
    intro route mem
    obtain ⟨pair, -, found⟩ := (exists_of_mapM_eq_ok named).2 route mem
    obtain ⟨expert, number, owner, row⟩ := ownedRoute_eq_ok found
    rw [expert, number]
    exact ⟨owner, row⟩
  have experts := map_eq_of_mapM_eq_ok named fun pair route found => (ownedRoute_eq_ok found).1
  have numbers := map_eq_of_mapM_eq_ok named fun pair route found => (ownedRoute_eq_ok found).2.1
  exact
    { experts := experts.trans (zipIdx_map_fst 0 batch.ids)
      numbers := by
        rw [numbers, range_eq_range']
        exact zipIdx_map_snd 0 batch.ids
      owners := fun route mem => (whole route mem).1
      names := fun route mem => (whole route mem).2 }

/-- The routes are named where every expert exists. -/
lemma exists_ownedRoutes [Scalar V] (admitted : Admitted place batch)
    (valid : ∀ expert ∈ batch.ids, expert < place.expertCount) :
    ∃ routes, ownedRoutes place batch = .ok routes := by
  refine exists_mapM_eq_ok ?_
  rintro ⟨expert, number⟩ mem
  have small := snd_lt_of_mem_zipIdx mem
  have owned := List.getElem?_eq_getElem (valid expert (fst_mem_of_mem_zipIdx mem))
  have token : number / batch.selected < batch.rows.length := by
    rw [Nat.div_lt_iff_lt_mul admitted.selected, ← admitted.ids]
    simpa using small
  dsimp only
  rw [ownedRoute, owned, List.getElem?_eq_getElem token]
  exact ⟨_, rfl⟩

/-- And only there. -/
lemma valid_of_ownedRoutes (routed : Routed place batch routes) :
    ∀ expert ∈ batch.ids, expert < place.expertCount := by
  rw [← routed.experts, forall_mem_map]
  intro route inside
  exact (List.getElem?_eq_some_iff.mp (routed.owners route inside)).1

lemma owner_lt (owned : place.owners[expert]? = some owner) : owner < place.ownerCount := by
  rw [Placement.ownerCount, foldl_max, Nat.lt_succ_iff]
  exact le_max_of_le_right (le_max?_getD_of_mem (mem_of_getElem? owned))

/-! ## Requests -/

/-- The rows of the request to an owner. -/
def ownerRows (routes : List OwnedRoute) (owner : Nat) : List RouteRow :=
  requestRows (routes.filter fun route => route.owner = owner)

lemma mem_ownerRows {row : RouteRow} : row ∈ ownerRows routes owner ↔
      ∃ route ∈ routes, route.owner = owner ∧ route.row = row := by
  rw [ownerRows, requestRows, mem_mergeSort, mem_map]
  simp only [mem_filter, decide_eq_true_eq, and_assoc]

section Routed
section
variable (routed : Routed place batch routes)
include routed

lemma Routed.length : routes.length = batch.ids.length := by
  rw [← routed.experts, length_map]

variable {route : OwnedRoute}

lemma Routed.number_lt (mem : route ∈ routes) : route.row.route < batch.ids.length := by
  have listed : route.row.route ∈ List.range batch.ids.length := by
    rw [← routed.numbers]
    exact mem_map_of_mem mem
  exact mem_range.mp listed

/-- A route's number is its place in the table of experts. -/
lemma Routed.expert_at (mem : route ∈ routes) :
    batch.ids[route.row.route]? = some route.row.expert := by
  obtain ⟨place, found⟩ := mem_iff_getElem?.mp mem
  have number : (List.range batch.ids.length)[place]? = some route.row.route := by
    rw [← routed.numbers, List.getElem?_map, found]
    rfl
  have same : place = route.row.route := by
    obtain ⟨inside, value⟩ := List.getElem?_eq_some_iff.mp number
    rw [getElem_range] at value
    exact value
  rw [← same, ← routed.experts, List.getElem?_map, found]
  rfl

lemma Routed.increasing : routes.Pairwise fun left right => left.row.route < right.row.route := by
  have ordered : (List.range batch.ids.length).Pairwise (· < ·) := pairwise_lt_range
  rw [← routed.numbers, pairwise_map] at ordered
  exact ordered

/-- The routes to an owner, in their order. -/
private lemma owner_increasing (owner : Nat) :
    ((routes.filter fun route => route.owner = owner).map OwnedRoute.row).Pairwise
        fun left right => left.route < right.route := by
  rw [pairwise_map]
  exact routed.increasing.filter _

end

private lemma ownerRows_perm (routes : List OwnedRoute) (owner : Nat) :
    (ownerRows routes owner).Perm
      ((routes.filter fun route => route.owner = owner).map OwnedRoute.row) :=
  mergeSort_perm _ _

section
variable (routed : Routed place batch routes)
include routed

private lemma ownerRows_nodup
    (owner : Nat) : ((ownerRows routes owner).map RouteRow.route).Nodup := by
  refine ((ownerRows_perm routes owner).map RouteRow.route).nodup_iff.mpr ?_
  rw [nodup_iff_pairwise_ne, pairwise_map]
  exact (owner_increasing routed owner).imp Nat.ne_of_lt

lemma length_ownerRows_le (owner : Nat) : (ownerRows routes owner).length ≤ batch.ids.length := by
  rw [(ownerRows_perm routes owner).length_eq, length_map, ← routed.length]
  exact length_filter_le _ routes

variable {owner expert : Nat}

/-- A request names rows of the batch only. -/
private lemma name_mem {row : RouteRow} (mem : row ∈ ownerRows routes owner) :
    row.row ∈ batch.rows := by
  obtain ⟨route, inside, -, rfl⟩ := mem_ownerRows.mp mem
  exact mem_of_getElem? (routed.names route inside)

omit routed in
private lemma dedup_length_le {α : Type} [DecidableEq α] {items bounds : List α}
    (subset : ∀ item ∈ items, item ∈ bounds) : items.dedup.length ≤ bounds.dedup.length := by
  refine (subperm_of_subset (nodup_dedup items) ?_).length_le
  intro item mem
  exact mem_dedup.mpr (subset item (mem_dedup.mp mem))

omit routed in
/-- A request has no more positions than the batch has rows. -/
lemma positions_le [Scalar V] (admitted : Admitted place batch)
    (routed : Routed place batch routes) (owner : Nat) :
    ((ownerRows routes owner).map RouteRow.row).dedup.length ≤ batch.rows.length := by
  rw [← admitted.distinct.dedup]
  exact dedup_length_le (forall_mem_map.mpr fun row inside => name_mem routed inside)

omit routed in
lemma request_canonical [Scalar V] (admitted : Admitted place batch)
    (routed : Routed place batch routes) (owner : Nat) :
    Canonical place owner (ownerRows routes owner) where
  sorted := by
    have ordered := pairwise_mergeSort_pairLe RouteRow.expert RouteRow.route
      ((routes.filter fun route => route.owner = owner).map OwnedRoute.row)
    have distinct := ownerRows_nodup routed owner
    rw [nodup_iff_pairwise_ne, pairwise_map] at distinct
    refine (ordered.and distinct).imp ?_
    rintro left right ⟨before, differ⟩
    rw [pairLe_iff] at before
    rw [RouteRow.Before]
    omega
  distinct := ownerRows_nodup routed owner
  admitted := by
    intro row mem
    obtain ⟨route, inside, -, rfl⟩ := mem_ownerRows.mp mem
    exact lt_of_lt_of_le (routed.number_lt inside) admitted.routes
  owned := by
    intro row mem
    obtain ⟨route, inside, rfl, rfl⟩ := mem_ownerRows.mp mem
    exact routed.owners route inside
  few := le_trans (length_ownerRows_le routed owner) admitted.routes
  positions := le_trans (positions_le admitted routed owner) admitted.few
  sessions := by
    refine le_trans (dedup_length_le (forall_mem_map.mpr fun row inside => ?_)) admitted.sessions
    exact mem_map_of_mem (name_mem routed inside)

/-- An owner's routes to one of its experts are all there are, in order. -/
lemma filter_ownerRows (owned : place.owners[expert]? = some owner) :
    (ownerRows routes owner).filter (fun row => row.expert = expert) =
      (routes.map OwnedRoute.row).filter fun row => row.expert = expert := by
  rw [ownerRows, requestRows, filter_mergeSort (owner_increasing routed owner),
    filter_map, filter_map, filter_filter]
  refine congrArg (List.map OwnedRoute.row) (filter_congr ?_)
  intro route mem
  -- a route to the expert goes to the owner of the expert
  have known := routed.owners route mem
  by_cases here : route.row.expert = expert
  · rw [here, owned, Option.some.injEq] at known
    simp [here, known.symm]
  · simp [here]

lemma filter_ownerRows_eq_nil {j : Nat} (owned : place.owners[expert]? = some owner)
    (differ : j ≠ owner) :
    (ownerRows routes j).filter (fun row => row.expert = expert) = [] := by
  rw [filter_eq_nil_iff]
  intro row mem same
  obtain ⟨route, inside, rfl, rfl⟩ := mem_ownerRows.mp mem
  have known := routed.owners route inside
  rw [of_decide_eq_true same, owned, Option.some.injEq] at known
  exact differ known.symm

/-- What comes back for an expert, from all the owners. -/
lemma rows_by_expert (small : expert < place.expertCount) :
    ((List.range place.ownerCount).map
        (ownerRows routes)).flatten.filter (fun row => row.expert = expert) =
      (routes.map OwnedRoute.row).filter fun row => row.expert = expert := by
  have owned := List.getElem?_eq_getElem small
  rw [filter_flatten, map_map, ← filter_ownerRows routed owned]
  refine flatten_map_range_single (owner_lt owned) ?_
  intro j differ
  exact filter_ownerRows_eq_nil routed owned differ

end

end Routed

end

variable [Scalar V]

/-- The activation that a route is sent with. -/
def activationOf (batch : Batch V hidden) (row : RouteRow) : Row V hidden :=
  batch.input.getD (row.route / batch.selected) zeroRow

/-- The row that comes back for a route. -/
def answerOf (expert : Nat → Row V hidden → Row V hidden)
    (batch : Batch V hidden) (row : RouteRow) : Row V hidden :=
  expert row.expert (activationOf batch row)

/-- What the experts have returned, each in the order of its routes. -/
def outputsOf (placement : Placement hidden) (expert : Nat → Row V hidden → Row V hidden)
    (batch : Batch V hidden) (routes : List OwnedRoute) : List (List (Row V hidden)) :=
  (distribute placement.expertCount RouteRow.expert (routes.map OwnedRoute.row)).map fun rows =>
      rows.map (answerOf expert batch)

variable (expert : Nat → Row V hidden → Row V hidden)

omit [Scalar V] in
/-- A route's expert and token, as both sides see it. -/
lemma tokens_of_routes (routed : Routed place batch routes) : (routes.map OwnedRoute.row).map
        (fun row => (row.expert, row.route / batch.selected)) =
      batch.ids.zipIdx.map fun (expert, number) => (expert, number / batch.selected) := by
  have pairs : routes.map (fun route =>
      (route.row.expert, route.row.route)) = batch.ids.zipIdx := by
    rw [← zip_map', routed.experts, routed.numbers, zipIdx_eq_zip_range', range_eq_range']
  rw [← pairs, map_map, map_map]
  rfl

omit [Scalar V] in
lemma tokens_of_tokenRoutes (weights : batch.weights.length = batch.ids.length) :
    (tokenRoutes batch.selected batch.ids batch.weights).map
        (fun route => (route.expert, route.token)) =
      batch.ids.zipIdx.map fun (expert, number) => (expert, number / batch.selected) := by
  have ids : (batch.ids.zip batch.weights).map Prod.fst = batch.ids :=
    map_fst_zip (le_of_eq weights.symm)
  rw [tokenRoutes, map_map]
  nth_rewrite 2 [← ids]
  rw [zipIdx_map, map_map]
  rfl

/-- The block that comes back for an expert is its block of the local
dispatch. -/
lemma returned_block (admitted : Admitted place batch) (routed : Routed place batch routes)
    (index : Nat) :
    ((routes.map OwnedRoute.row).filter fun row => row.expert = index).map (answerOf expert batch) =
      ((tokenRoutes batch.selected batch.ids batch.weights).filter
        fun route => route.expert = index).map fun route =>
          expert index (batch.input.getD route.token zeroRow) := by
  have same := (tokens_of_routes routed).trans (tokens_of_tokenRoutes admitted.weights).symm
  generalize routes.map OwnedRoute.row = rows at same ⊢
  have blocks := congrArg (fun tokens : List (Nat × Nat) =>
    (tokens.filter fun token => token.1 = index).map fun token =>
      expert token.1 (batch.input.getD token.2 zeroRow)) same
  rw [filter_map, filter_map, map_map, map_map] at blocks
  refine blocks.trans (map_congr_left ?_)
  intro route mem
  have here : route.expert = index := by simpa using (mem_filter.mp mem).2
  exact congrArg (fun found => expert found (batch.input.getD route.token zeroRow)) here

/-! ## Prefill -/

variable {input : List (Row V hidden)}

lemma runExperts_congr {left right : Forward V hidden} {first : Nat}
    {groups : List (List (TokenRoute V))} {total : List (Row V hidden)}
    (same : ∀ i routes, groups[i]? = some routes →
      (selectRows input routes).bind (left (first + i)) =
        (selectRows input routes).bind (right (first + i))) :
    runExperts left input first groups total = runExperts right input first groups total := by
  induction groups generalizing first total with
  | nil => rfl
  | cons group rest ih =>
    have later : ∀ i routes, rest[i]? = some routes →
        (selectRows input routes).bind (left (first + 1 + i)) =
          (selectRows input routes).bind (right (first + 1 + i)) := by
      intro i routes found
      have step := same (i + 1) routes found
      rw [add_comm i 1, ← add_assoc] at step
      exact step
    have here := same 0 group rfl
    rw [add_zero] at here
    rw [runExperts, runExperts]
    split
    · exact ih later
    · simp only [← bind_assoc]
      exact congrArg₂ Except.bind (congrArg (Except.bind · _) here) (funext fun next => ih later)

lemma selectRows_eq_ok {group : List (TokenRoute V)}
    (inside : ∀ route ∈ group, route.token < input.length) :
    selectRows input group = .ok (group.map fun route => input.getD route.token zeroRow) := by
  refine mapM_eq_ok_map ?_
  intro route mem
  rw [List.getElem?_eq_getElem (inside route mem), getD_eq_getElem?_getD,
    List.getElem?_eq_getElem (inside route mem)]
  rfl

lemma token_lt (admitted : Admitted place batch) {route : TokenRoute V}
    (mem : route ∈ tokenRoutes batch.selected batch.ids batch.weights) :
    route.token < batch.input.length := by
  have listed : (route.expert, route.token) ∈
      (tokenRoutes batch.selected batch.ids batch.weights).map
        fun route => (route.expert, route.token) :=
    mem_map_of_mem mem
  rw [tokens_of_tokenRoutes admitted.weights] at listed
  obtain ⟨⟨expert, number⟩, inside, same⟩ := List.mem_map.mp listed
  have small := List.snd_lt_of_mem_zipIdx inside
  have token : number / batch.selected = route.token := congrArg Prod.snd same
  rw [← token, Nat.div_lt_iff_lt_mul admitted.selected, admitted.input, ← admitted.ids]
  simpa using small

lemma dispatchPrefill_returned (admitted : Admitted place batch)
    (routed : Routed place batch routes) :
    dispatchPrefill place.expertCount
        (returnedExpert (outputsOf place expert batch routes))
        batch.input batch.ids batch.weights batch.selected =
      dispatchPrefill place.expertCount (localExperts expert)
        batch.input batch.ids batch.weights batch.selected := by
  rw [dispatchPrefill, dispatchPrefill]
  refine congrArg (Except.bind _) ?_
  funext _
  refine runExperts_congr ?_
  intro i group found
  have small : i < place.expertCount := by
    have inside := (List.getElem?_eq_some_iff.mp found).1
    rwa [length_distribute] at inside
  rw [getElem?_distribute TokenRoute.expert _ small, Option.some.injEq] at found
  have tokens : ∀ route ∈ group, route.token < batch.input.length := by
    intro route mem
    rw [← found] at mem
    exact token_lt admitted (mem_filter.mp mem).1
  have block : (outputsOf place expert batch routes)[i]? = some (group.map fun route =>
        expert i (batch.input.getD route.token zeroRow)) := by
    rw [outputsOf, List.getElem?_map, getElem?_distribute RouteRow.expert _ small, ← found,
      ← returned_block expert admitted routed i]
    rfl
  rw [selectRows_eq_ok tokens]
  simp only [Except.bind, returnedExpert, block, localExperts, map_map, zero_add]
  rfl

/-! ## Decode -/

lemma readBack_outputs (routed : Routed place batch routes) :
    readBack (outputsOf place expert batch routes) batch.ids (List.replicate place.expertCount 0) =
      some ((routes.map OwnedRoute.row).map (answerOf expert batch)) := by
  have keys : (routes.map OwnedRoute.row).map RouteRow.expert = batch.ids := by
    rw [map_map]
    exact routed.experts
  have inside : ∀ row ∈ routes.map OwnedRoute.row, row.expert < place.expertCount := by
    intro row mem
    refine valid_of_ownedRoutes routed row.expert ?_
    rw [← keys]
    exact mem_map_of_mem mem
  have read := readBack_distribute inside
  rw [keys] at read
  rw [outputsOf, readBack_map, read]
  rfl

variable {value : Row V hidden}

lemma slots_of_routes (admitted : Admitted place batch) (routed : Routed place batch routes)
    (single : batch.rows.length = 1)
    (only : batch.input = [value]) : (routes.map OwnedRoute.row).map (answerOf expert batch) =
      batch.ids.map fun i => expert i value := by
  rw [← routed.experts, map_map, map_map]
  refine map_congr_left ?_
  intro route mem
  have small := routed.number_lt mem
  rw [admitted.ids, single, one_mul] at small
  simp [answerOf, activationOf, Nat.div_eq_of_lt small, only]

lemma dispatchDecode_local (sum : SumBlocks V hidden)
    (valid : ∀ i ∈ batch.ids, i < place.expertCount) :
    dispatchDecode sum place.expertCount (localExperts expert) [value] batch.ids batch.weights =
      .ok (sumSlots sum (batch.ids.map fun i => [expert i value]) batch.weights) := by
  have slots : batch.ids.zipIdx.mapM (fun pair =>
      runSlot place.expertCount (localExperts expert) [value] pair.1 pair.2) =
      .ok (batch.ids.zipIdx.map fun pair => [expert pair.1 value]) := by
    refine mapM_eq_ok_map ?_
    rintro ⟨i, slot⟩ mem
    exact if_neg (not_le.mpr (valid i (fst_mem_of_mem_zipIdx mem)))
  have blocks : batch.ids.zipIdx.map (fun pair => [expert pair.1 value]) =
      batch.ids.map fun i => [expert i value] := by
    nth_rewrite 2 [← zipIdx_map_fst 0 batch.ids]
    rw [map_map]
    rfl
  rw [dispatchDecode, slots, blocks]
  rfl

/-- What has come back is combined to the result of the local dispatch. -/
lemma combine_eq_local (sum : SumBlocks V hidden) (admitted : Admitted place batch)
    (routed : Routed place batch routes) :
    combine sum place batch (outputsOf place expert batch routes) =
      (localDispatch sum place expert batch).mapError .dispatch := by
  rw [combine, localDispatch]
  by_cases single : batch.rows.length = 1
  · obtain ⟨value, only⟩ : ∃ value, batch.input = [value] :=
      length_eq_one_iff.mp (admitted.input.trans single)
    rw [if_pos single, if_pos single, readBack_outputs expert routed,
      slots_of_routes expert admitted routed single only, only,
      dispatchDecode_local expert sum (valid_of_ownedRoutes routed)]
    dsimp only
    rw [map_map]
    rfl
  · rw [if_neg single, if_neg single, dispatchPrefill_returned expert admitted routed]

end Joshua.Experts
