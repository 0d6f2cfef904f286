/-
Module: Joshua.Proofs.ClusterAgreement
Purpose: The ranks of a session come to the same verdict, although each of
  them computes it from sums of numbers by itself.
Trusted boundary: none
-/
import Joshua.Model.ClusterSession

namespace Joshua.ClusterSession
open Joshua.Foundation List
open Float32Ops (add eq isFinite ofNat)
open Results (of_ended of_meet unique)

/-- Sums of small whole numbers are exact and different ones compare as
different, as single precision has it below 2 ^ 24. -/
class ExactCounts (V : Type) [Float32Ops V] : Prop where
  add_ofNat : ∀ {left right : Nat}, left + right < 2 ^ 24 →
    add (ofNat left : V) (ofNat right) = ofNat (left + right)
  eq_ofNat : ∀ {left right : Nat}, left < 2 ^ 24 → right < 2 ^ 24 →
    (eq (ofNat left : V) (ofNat right) = true ↔ left = right)

variable {V : Type} [Float32Ops V] [ExactCounts V]
  (sha256 : Bytes → Digest) {ranks : Nat} [NeZero ranks]

/-! ## The sums of an agreement -/

/-- What a rank brings to the first reduction. -/
def reference (digest : List UInt8) (rank : Fin ranks) : List V :=
  digest.map fun byte =>
    if rank.val = 0 then ofNat byte.toNat else zero

lemma byte_small (byte : UInt8) : byte.toNat < 2 ^ 24 :=
  lt_of_lt_of_le byte.toNat_lt (by decide)

lemma zipWith_zero_left (digest : Bytes) :
    List.zipWith add (List.replicate digest.length (zero : V))
        (digest.map fun byte => ofNat byte.toNat) =
      digest.map fun byte => ofNat byte.toNat := by
  rw [← map_const', zipWith_map, zipWith_self]
  refine map_congr_left fun byte _ => ?_
  have small : 0 + byte.toNat < 2 ^ 24 := by simpa using byte_small byte
  rw [zero, ExactCounts.add_ofNat small, zero_add]

lemma zipWith_zero_right (digest others : Bytes) (size : digest.length = others.length) :
    List.zipWith add
        (digest.map fun byte => (ofNat byte.toNat : V))
        (others.map fun _ => zero) =
      digest.map fun byte => ofNat byte.toNat := by
  rw [map_const', ← size, ← map_const', zipWith_map, zipWith_self]
  refine map_congr_left fun byte _ => ?_
  have small : byte.toNat + 0 < 2 ^ 24 := byte_small byte
  rw [zero, ExactCounts.add_ofNat small, add_zero]

/-- The first reduction gives every rank the digest of rank zero. -/
lemma combine_reference (digests : Fin ranks → Bytes) {size : Nat}
    (sizes : ∀ rank, (digests rank).length = size) :
    combine (zero : V) add size (fun rank => reference (digests rank) rank) =
      (digests 0).map fun byte => ofNat byte.toNat := by
  obtain ⟨others, rfl⟩ : ∃ others, ranks = others + 1 :=
    Nat.exists_eq_succ_of_ne_zero (NeZero.ne ranks)
  have first : reference (V := V) (digests 0) (0 : Fin (others + 1)) =
      (digests 0).map fun byte => ofNat byte.toNat := by
    simp [reference]
  rw [combine, finRange_succ, foldl_cons, first, ← sizes 0, zipWith_zero_left, foldl_map]
  -- every other rank adds nothing
  generalize List.finRange others = rest
  induction rest with
  | nil => rfl
  | cons rank rest ih =>
    have later : reference (V := V) (digests rank.succ) rank.succ =
        (digests rank.succ).map fun _ => zero := by
      simp [reference]
    rw [foldl_cons, later, zipWith_zero_right _ _ ((sizes 0).trans (sizes rank.succ).symm), ih]

omit [NeZero ranks] in
/-- The second reduction counts the ranks with another digest. -/
lemma combine_flags (few : ranks ≤ maxParticipants) (flags : Fin ranks → Bool) :
    ∃ count, count < 2 ^ 24 ∧ combine (zero : V) add 1
          (fun rank => [ofNat (if flags rank then 0 else 1)]) =
        [ofNat count] ∧
      (count = 0 ↔ ∀ rank, flags rank = true) := by
  suffices general : ∀ (done : List (Fin ranks)) (start : Nat), start + done.length < 2 ^ 24 →
      ∃ count, count < 2 ^ 24 ∧ done.foldl (fun sums rank => List.zipWith add sums
            [(ofNat (if flags rank then 0 else 1) : V)])
            [ofNat start] = [ofNat count] ∧
        (count = 0 ↔ start = 0 ∧ ∀ rank ∈ done, flags rank = true) by
    have bound : 0 + (List.finRange ranks).length < 2 ^ 24 := by
      rw [length_finRange, zero_add]
      exact lt_of_le_of_lt few (by decide)
    obtain ⟨count, small, sums, zero⟩ := general _ 0 bound
    refine ⟨count, small, sums, zero.trans ?_⟩
    simp [mem_finRange]
  intro done
  induction done with
  | nil => exact fun start small => ⟨start, by simpa using small, rfl, by simp⟩
  | cons rank rest ih =>
    intro start small
    rw [length_cons] at small
    have step : start + (if flags rank then 0 else 1) + rest.length < 2 ^ 24 := by split <;> omega
    obtain ⟨count, bound, sums, zero⟩ := ih _ step
    refine ⟨count, bound, ?_, zero.trans ?_⟩
    · rw [foldl_cons, zipWith_cons_cons, zipWith_nil_left, ExactCounts.add_ofNat (by omega)]
      exact sums
    · cases flag : flags rank <;> simp [flag]

/-- Whether a rank finds the digest of rank zero to be its own. -/
def agrees (shared : List V) (digest : List UInt8) : Bool :=
  (shared.zip digest).all fun pair => eq pair.1 (ofNat pair.2.toNat : V)

lemma agrees_iff {first digest : Bytes} (size : first.length = digest.length) :
    agrees (first.map fun byte => (ofNat byte.toNat : V)) digest = true ↔ first = digest := by
  induction first generalizing digest with
  | nil =>
    rw [length_eq_zero_iff.mp size.symm]
    simp [agrees]
  | cons byte rest ih =>
    cases digest with
    | nil => cases size
    | cons j others =>
      have tail := ih (Nat.succ.inj size)
      simp only [agrees, map_cons, zip_cons_cons,
        all_cons, Bool.and_eq_true, List.cons.injEq] at tail ⊢
      rw [tail, ExactCounts.eq_ofNat (byte_small byte) (byte_small j), UInt8.toNat_inj]

/-! ## Agreement -/

lemma mismatch_eq_zero {count : Nat} (small : count < 2 ^ 24) :
    (([ofNat count] : List V).length = 1 &&
      ([ofNat count] : List V).all fun count => eq count zero) = decide (count = 0) := by
  have test := ExactCounts.eq_ofNat (V := V) small (show 0 < 2 ^ 24 by decide)
  rw [Bool.eq_iff_iff]
  simp [zero, test]

/-- Both reductions of an agreement are met by all ranks, and every rank finds
the same number of ranks that have another digest than rank zero. -/
lemma agreeLocked_results {R : Type} (few : ranks ≤ maxParticipants)
    (bytes : Fin ranks → Bytes) (continued : Fin ranks → Unit → Task V R) :
    ∃ verdict : Bool, (verdict = true ↔ ∀ rank, sha256 (bytes rank) = sha256 (bytes 0)) ∧
      ∀ results, Results zero add
          (fun rank => (if verdict then .ok () else .fail
            "cluster ranks disagree on model, inputs, or collective operation"
            : Task V Unit).bind (continued rank)) results →
        Results zero add
          (fun rank => (agreeLocked sha256 rank (bytes rank)).bind (continued rank)) results := by
  have sizes : ∀ rank, (sha256 (bytes rank)).toList.length = 32 := by simp
  have shared := combine_reference (V := V) (fun rank => (sha256 (bytes rank)).toList) sizes
  obtain ⟨count, small, sums, zero⟩ := combine_flags (V := V) few
    fun rank => agrees (combine (zero : V) add 32
      fun rank => reference (sha256 (bytes rank)).toList rank) (sha256 (bytes rank)).toList
  refine ⟨decide (count = 0), ?_, ?_⟩
  · rw [decide_eq_true_iff, zero, shared]
    refine forall_congr' fun rank => ?_
    rw [agrees_iff ((sizes 0).trans (sizes rank).symm), Vector.toList_inj]
    exact eq_comm
  · intro results ran
    refine of_meet (fun rank => rfl) (fun rank => by rw [length_map]; exact sizes rank) ?_
    refine of_meet (fun rank => rfl) (fun rank => rfl) ?_
    rw [← mismatch_eq_zero (V := V) small, ← sums] at ran
    exact ran

/-! ## Exchanges -/

omit [ExactCounts V] in
/-- Chunks of the same lengths are reduced with one outcome. -/
lemma reduceChunks_results (lengths : List Nat) (chunks : Fin ranks → List (List V))
    (start : Fin ranks → List V) (sizes : ∀ rank, (chunks rank).map List.length = lengths) :
    ∃ results, Results zero add (fun rank => reduceChunks (chunks rank) (start rank)) results ∧
      Uniform results := by
  induction lengths generalizing chunks start with
  | nil =>
    have done : ∀ rank, chunks rank = [] := fun rank => map_eq_nil_iff.mp (sizes rank)
    refine ⟨fun rank => .ok (start rank), ?_, .inl fun _ => rfl⟩
    simp only [done]
    exact of_ended fun _ => rfl
  | cons size lengths ih =>
    have split : ∀ rank, ∃ chunk rest, chunks rank = chunk :: rest ∧
        chunk.length = size ∧ rest.map List.length = lengths :=
      fun rank => map_eq_cons_iff.mp (sizes rank) |>.imp
        fun chunk found => found.imp fun rest facts => facts
    choose chunk rest both first later using split
    have waiting : ∀ rank, reduceChunks (chunks rank) (start rank) =
        .reduce (chunk rank) fun sums =>
          if sums.all isFinite then
            reduceChunks (rest rank) (start rank ++ sums)
          else .fail "nonfinite reduced cluster activation" := by
      intro rank
      rw [both rank, reduceChunks]
    cases finite : (combine (zero : V) add size chunk).all isFinite with
    | true =>
      obtain ⟨results, ran, uniform⟩ := ih rest
        (fun rank => start rank ++ combine zero add size chunk)
        later
      refine ⟨results, of_meet waiting first ?_, uniform⟩
      simpa only [finite, if_true] using ran
    | false =>
      refine ⟨fun _ => .error "nonfinite reduced cluster activation",
        of_meet waiting first ?_, .inr fun _ => rfl⟩
      simp only [finite, Bool.false_eq_true, if_false]
      exact of_ended fun _ => rfl

variable {values : List V}
omit [Float32Ops V] [ExactCounts V] in
/-- The lengths of the chunks depend on the number of values alone. -/
lemma map_length_chunksOf (size : Nat) {others : List V} (same : values.length = others.length) :
    (chunksOf size values).map List.length = (chunksOf size others).map List.length := by
  simp only [chunksOf, map_map, same]
  refine map_congr_left fun chunk _ => ?_
  simp only [Function.comp, length_take, length_drop, same]

/-! ## Calls -/

/-- The bytes the ranks of a call agree on. -/
def Call.agreed : Call V → List UInt8
  | .agree bytes => bytes
  | .exchange broadcast values => descriptor broadcast values.length

/-- Whether a rank gets as far as the agreement. -/
def Call.admitted : Call V → Bool
  | .agree _ => true
  | .exchange _ values => decide (values.length ≤ maxCallElements) && values.all isFinite

/-- What a rank does behind the agreement. -/
def Call.afterAgreement (rank : Fin ranks) : Call V → Task V (List V)
  | .agree _ => .ok []
  | .exchange broadcast values =>
    reduceChunks (chunksOf (chunkSize ranks)
      (if broadcast && rank.val ≠ 0 then List.replicate values.length zero else values)) []

variable {poisoned : Fin ranks → Bool} {calls : Fin ranks → Call V}
  {results : Fin ranks → Except String (List V)} {rank : Fin ranks}
  {call : Call V}
omit [ExactCounts V] [NeZero ranks] in
lemma task_of_admitted (rank : Fin ranks) (admitted : call.admitted = true) :
    call.task sha256 rank = (agreeLocked sha256 rank call.agreed).bind
      fun _ => call.afterAgreement rank := by
  cases call with
  | agree bytes => rfl
  | exchange broadcast values =>
    rw [Call.admitted, Bool.and_eq_true, decide_eq_true_iff] at admitted
    rw [Call.task, exchange, if_neg (not_lt.mpr admitted.1), admitted.2]
    rfl

omit [ExactCounts V] [NeZero ranks] in
lemma task_of_refused (rank : Fin ranks) (refused : call.admitted = false) :
    ∃ message, call.task sha256 rank = .fail message := by
  cases call with
  | agree bytes => cases refused
  | exchange broadcast values =>
    rw [Call.task, exchange]
    by_cases long : maxCallElements < values.length
    · exact ⟨_, if_pos long⟩
    · rw [Call.admitted, decide_eq_true (not_lt.mp long), Bool.true_and] at refused
      rw [if_neg long, refused]
      exact ⟨_, rfl⟩

omit [ExactCounts V] [NeZero ranks] in
/-- A rank that does not reach the agreement fails, and so does every rank
that waits for it there. -/
lemma outcome_operation (poisoned : Fin ranks → Bool) (calls : Fin ranks → Call V)
    (rank : Fin ranks) : (operation sha256 poisoned calls rank).outcome.isOk = false := by
  rw [operation]
  split
  next => rfl
  next =>
    cases admitted : (calls rank).admitted with
    | true =>
      rw [task_of_admitted sha256 rank admitted]
      rfl
    | false =>
      obtain ⟨msg, failed⟩ := task_of_refused sha256 rank admitted
      rw [failed]
      rfl

omit [ExactCounts V] [NeZero ranks] in
/-- One rank without a usable session or with a refused input stops all. -/
lemma called_of_absent (absent : poisoned rank = true ∨ (calls rank).admitted = false) :
    ∃ results, Called sha256 poisoned calls results ∧ ∀ rank, (results rank).isOk = false := by
  have nothing : (operation sha256 poisoned calls rank).brings = none := by
    rw [operation]
    split
    next => rfl
    next healthy =>
      obtain ⟨msg, failed⟩ := task_of_refused sha256 rank (absent.resolve_left healthy)
      rw [failed]
      rfl
  exact ⟨_, Results.of_absent nothing, outcome_operation sha256 poisoned calls⟩

/-- All ranks get as far as the agreement: they all fail there, or they agree
and go on together. -/
lemma called_of_admitted (few : ranks ≤ maxParticipants) (healthy : ∀ rank, poisoned rank = false)
    (admitted : ∀ rank, (calls rank).admitted = true) :
    ((∀ rank, sha256 (calls rank).agreed = sha256 (calls 0).agreed) ∧
      ∀ results, Results zero add (fun rank => (calls rank).afterAgreement rank) results →
        Called sha256 poisoned calls results) ∨
    ((¬ ∀ rank, sha256 (calls rank).agreed = sha256 (calls 0).agreed) ∧
      ∃ results, Called sha256 poisoned calls results ∧ ∀ rank, (results rank).isOk = false) := by
  have tasks : operation sha256 poisoned calls = fun rank =>
      (agreeLocked sha256 rank (calls rank).agreed).bind
        fun _ => (calls rank).afterAgreement rank := by
    funext rank
    rw [operation, healthy rank, if_neg Bool.false_ne_true,
      task_of_admitted sha256 rank (admitted rank)]
  obtain ⟨verdict, same, ran⟩ := agreeLocked_results (V := V) sha256 few
    (fun rank => (calls rank).agreed)
    (fun rank _ => (calls rank).afterAgreement rank)
  cases verdict with
  | true =>
    refine .inl ⟨same.mp rfl, fun results later => ?_⟩
    rw [Called, tasks]
    exact ran results later
  | false =>
    refine .inr ⟨fun all => Bool.false_ne_true (same.mpr all), fun _ => .error
        "cluster ranks disagree on model, inputs, or collective operation",
      ?_, fun _ => rfl⟩
    rw [Called, tasks]
    exact ran _ (of_ended fun _ => rfl)

/-! ## The same operation -/

/-- No rank agrees on bytes that spell another rank's exchange. -/
def Distinct (calls : Fin ranks → Call V) : Prop :=
  ∀ rank other bytes broadcast values, calls rank = .agree bytes →
    calls other = .exchange broadcast values →
    bytes ≠ descriptor broadcast values.length

/-- All ranks call the same exchange with the same number of values. -/
def SameExchange (calls : Fin ranks → Call V) : Prop :=
  ∃ broadcast size, ∀ rank, ∃ values, calls rank = .exchange broadcast values ∧ values.length = size

variable {broadcast : Bool}

lemma descriptor_injective {other : Bool} {size length : Nat} (small : size ≤ maxCallElements)
    (short : length ≤ maxCallElements)
    (same : descriptor broadcast size = descriptor other length) :
    broadcast = other ∧ size = length := by
  simp only [descriptor, append_assoc] at same
  have fields := append_cancel_left same
  rw [singleton_append, singleton_append, List.cons.injEq] at fields
  have bound : maxCallElements < 256 ^ 8 := by decide
  refine ⟨?_, leBytes_injective (lt_of_le_of_lt small bound) (lt_of_le_of_lt short bound) fields.2⟩
  cases broadcast <;> cases other <;> simp_all

variable {first : Fin ranks}
omit [ExactCounts V] [NeZero ranks] in
/-- Ranks that agree on the bytes of an exchange all call it. -/
lemma sameExchange_of_agreed (nodup : Distinct calls)
    (admitted : ∀ rank, (calls rank).admitted = true)
    (exchanges : calls first = .exchange broadcast values)
    (same : ∀ rank, (calls rank).agreed = (calls first).agreed) : SameExchange calls := by
  have limit : ∀ {rank : Fin ranks} {broadcast : Bool} {values : List V},
      calls rank = .exchange broadcast values →
      values.length ≤ maxCallElements := by
    intro rank broadcast values found
    have whole := admitted rank
    rw [found, Call.admitted, Bool.and_eq_true, decide_eq_true_iff] at whole
    exact whole.1
  refine ⟨broadcast, values.length, fun rank => ?_⟩
  have bytes := same rank
  rw [exchanges] at bytes
  cases found : calls rank with
  | agree own =>
    rw [found] at bytes
    exact absurd bytes (nodup rank first own broadcast values found exchanges)
  | exchange j own =>
    rw [found] at bytes
    obtain ⟨rfl, size⟩ := descriptor_injective (limit found) (limit exchanges) bytes
    exact ⟨own, rfl, size⟩

omit [ExactCounts V] in
/-- The same exchange at all ranks ends in the same way at all ranks. -/
lemma afterAgreement_results (same : SameExchange calls) : ∃ results, Results zero add
        (fun rank => (calls rank).afterAgreement rank) results ∧
      Uniform results := by
  obtain ⟨broadcast, size, ranksCall⟩ := same
  choose values call lengths using ranksCall
  have tasks : (fun rank => (calls rank).afterAgreement rank) =
      fun rank => reduceChunks (chunksOf (chunkSize ranks) (if broadcast && rank.val ≠ 0 then
          List.replicate (values rank).length zero else values rank)) [] := by
    funext rank
    rw [call rank]
    rfl
  rw [tasks]
  refine reduceChunks_results ((chunksOf (chunkSize ranks) (values 0)).map List.length) _ _
    fun rank => map_length_chunksOf _ ?_
  split <;> simp [lengths]

/-! ## Later calls -/

omit [ExactCounts V] [NeZero ranks] in
/-- A rank whose session has failed fails in every later call. -/
lemma calledAll_of_poisoned {later : List (Fin ranks → Call V)}
    {laterResults : List (Fin ranks → Except String (List V))}
    (called : CalledAll sha256 poisoned later laterResults) (failed : poisoned rank = true) :
    ∀ results ∈ laterResults, (results rank).isOk = false := by
  induction called with
  | nil => exact fun results mem => absurd mem (not_mem_nil)
  | @cons poisoned calls results later laterResults head _
      ih =>
      have stopped : poisoned rank = true ∨ (calls rank).admitted = false := .inl failed
      obtain ⟨all, ran, refused⟩ := called_of_absent sha256 stopped
      have same : results = all := unique head ran
      have still : poisonedAfter poisoned results rank = true := by
        rw [poisonedAfter, failed, Bool.true_or]
      refine forall_mem_cons.mpr ⟨?_, ih still⟩
      rw [same]
      exact refused rank

/-! ## Every combination of calls -/

section
variable (few : ranks ≤ maxParticipants) (called : Called sha256 poisoned calls results)
include few called

/-- `agree` on usable sessions: one verdict at every rank, by whether all hold
rank zero's digest. -/
lemma called_agree (healthy : ∀ rank, poisoned rank = false) {bytes : Fin ranks → Bytes}
    (agrees : ∀ rank, calls rank = .agree (bytes rank)) :
    ((∀ rank, sha256 (bytes rank) = sha256 (bytes 0)) → ∀ rank, (results rank).isOk = true) ∧
    ((¬ ∀ rank, sha256 (bytes rank) = sha256 (bytes 0)) → ∀ rank, (results rank).isOk = false) := by
  have admitted : ∀ rank, (calls rank).admitted = true := by
    intro rank
    rw [agrees rank]
    rfl
  have digests : (∀ rank, sha256 (calls rank).agreed = sha256 (calls 0).agreed) ↔
        ∀ rank, sha256 (bytes rank) = sha256 (bytes 0) := by
    simp only [agrees, Call.agreed]
  rcases called_of_admitted sha256 few healthy admitted with
    ⟨same, goesOn⟩ | ⟨differ, all, ran, failed⟩
  · refine ⟨fun _ rank => ?_, fun differ => absurd (digests.mp same) differ⟩
    have ended : Results zero add
        (fun rank => (calls rank).afterAgreement rank) fun _ => .ok [] := by
      simp only [agrees]
      exact of_ended fun _ => rfl
    rw [unique called (goesOn _ ended)]
    rfl
  · refine ⟨fun same => absurd (digests.mpr same) differ, fun _ rank => ?_⟩
    rw [unique called ran]
    exact failed rank

/-- An exchange at some rank returns at all ranks, which then all made the
same one, or fails at all ranks. -/
lemma called_exchange
    (collisionFree : ∀ rank other, sha256 (calls rank).agreed = sha256 (calls other).agreed →
      (calls rank).agreed = (calls other).agreed)
    (nodup : Distinct calls) (exchanges : calls first = .exchange broadcast values) :
    ((∀ rank, (results rank).isOk = true) ∧ SameExchange calls) ∨
      ∀ rank, (results rank).isOk = false := by
  have settle : (∃ all, Called sha256 poisoned calls all ∧ ∀ rank, (all rank).isOk = false) →
      ∀ rank, (results rank).isOk = false := by
    rintro ⟨all, ran, failed⟩
    rw [unique called ran]
    exact failed
  by_cases absent : ∃ rank, poisoned rank = true ∨ (calls rank).admitted = false
  · obtain ⟨rank, absent⟩ := absent
    exact .inr (settle (called_of_absent sha256 absent))
  · have healthy : ∀ rank, poisoned rank = false := fun rank =>
      Bool.eq_false_iff.mpr fun bad => absent ⟨rank, .inl bad⟩
    have admitted : ∀ rank, (calls rank).admitted = true := fun rank =>
      Bool.eq_true_of_not_eq_false fun bad => absent ⟨rank, .inr bad⟩
    rcases called_of_admitted sha256 few healthy admitted with
      ⟨same, goesOn⟩ | ⟨_, failed⟩
    · have sameExchange := sameExchange_of_agreed nodup admitted exchanges
        fun rank => collisionFree rank first ((same rank).trans (same first).symm)
      obtain ⟨all, later, uniform⟩ := afterAgreement_results sameExchange
      rw [unique called (goesOn all later)]
      exact uniform.imp_left fun returned => ⟨returned, sameExchange⟩
    · exact .inr (settle failed)

end

omit [ExactCounts V] [NeZero ranks] in
/-- A failed call keeps the caller's values and no later call returns. -/
lemma failed_for_good (failed : (results rank).isOk = false) :
    callerValues call (results rank) = call.values ∧
      ∀ (later : List (Fin ranks → Call V)) laterResults,
        CalledAll sha256 (poisonedAfter poisoned results) later laterResults →
        ∀ next ∈ laterResults, (next rank).isOk = false := by
  refine ⟨?_, fun later laterResults called => ?_⟩
  · cases result : results rank with
    | ok changed =>
      rw [result] at failed
      cases failed
    | error msg => rfl
  · refine calledAll_of_poisoned sha256 called ?_
    rw [poisonedAfter, failed, Bool.not_false, Bool.or_true]

/-- A call of a group of ranks in any state of their sessions. `agree` returns
at every rank if all ranks hold rank zero's digest and fails at every rank if
not. If some rank exchanges, all ranks return and have called the same
exchange with the same length, or all fail, keep their values and fail in
every later call. -/
theorem called_uniformly (few : ranks ≤ maxParticipants)
    (poisoned : Fin ranks → Bool) (calls : Fin ranks → Call V)
    (collisionFree : ∀ rank other, sha256 (calls rank).agreed = sha256 (calls other).agreed →
      (calls rank).agreed = (calls other).agreed) :
    ∃ results, (∀ found, Called sha256 poisoned calls found ↔ found = results) ∧
      (∀ bytes : Fin ranks → List UInt8, (∀ rank, poisoned rank = false) →
        (∀ rank, calls rank = .agree (bytes rank)) →
        ((∀ rank, sha256 (bytes rank) = sha256 (bytes 0)) → ∀ rank, (results rank).isOk = true) ∧
        ((¬ ∀ rank, sha256 (bytes rank) = sha256 (bytes 0)) →
          ∀ rank, (results rank).isOk = false)) ∧
      (∀ first broadcast values, calls first = .exchange broadcast values → Distinct calls →
        ((∀ rank, (results rank).isOk = true) ∧ SameExchange calls) ∨
        ∀ rank, (results rank).isOk = false ∧
          callerValues (calls rank) (results rank) = (calls rank).values ∧
          ∀ (later : List (Fin ranks → Call V)) laterResults,
            CalledAll sha256 (poisonedAfter poisoned results) later laterResults →
            ∀ next ∈ laterResults, (next rank).isOk = false) := by
  obtain ⟨results, called⟩ : ∃ results, Called sha256 poisoned calls results := Results.exists _
  refine ⟨results, fun found => ⟨fun other => unique other called,
    fun same => same ▸ called⟩, fun bytes healthy agrees =>
      called_agree sha256 few called healthy agrees,
    fun first broadcast values exchanges distinct => ?_⟩
  refine (called_exchange sha256 few called collisionFree distinct
    exchanges).imp_right fun failed rank => ⟨failed rank, ?_⟩
  exact failed_for_good sha256 (failed rank)

instance : Float32Ops Nat where
  ofNat := id
  add := Nat.add
  eq := fun left right => decide (left = right)
  isFinite := fun _ => true

instance : ExactCounts Nat where
  add_ofNat := fun _ => rfl
  eq_ofNat := fun _ _ => decide_eq_true_iff

/-- The first bytes in the place of their hash. -/
def firstBytes (bytes : Bytes) : Digest :=
  Vector.ofFn fun index => bytes.getD index 0

/-- A sum at one rank and a broadcast at the other. -/
theorem called_uniformly_of_two : ∃ results : Fin 2 → Except String (List Nat),
    Called firstBytes (fun _ => false) (fun rank => .exchange (rank = 1) [5, 7]) results ∧
    ∀ rank, (results rank).isOk = false := by
  obtain ⟨results, called, _, exchanges⟩ := called_uniformly (V := Nat) firstBytes
    (show 2 ≤ maxParticipants by decide) (fun _ => false)
    (fun rank => .exchange (rank = 1) [5, 7])
    (by decide +kernel)
  refine ⟨results, (called results).mpr rfl, fun rank => ?_⟩
  rcases exchanges 0 false [5, 7] rfl (fun _ _ _ _ _ agrees => nomatch agrees)
    with ⟨_, broadcast, size, same⟩ | failed
  · obtain ⟨_, zeroth, _⟩ := same 0
    obtain ⟨_, oneth, _⟩ := same 1
    cases zeroth
    cases oneth
  · exact (failed rank).1

/-- Rank zero agrees on the bytes that describe a sum of one value, the other
rank sums one value. -/
def spelledSum (rank : Fin 2) : Call Nat :=
  if rank = 0 then .agree (descriptor false 1) else .exchange false [5]

/-- The two agree, then rank zero has returned and the sum fails. -/
theorem spelled_sum_splits : ∃ results : Fin 2 → Except String (List Nat),
    Called firstBytes (fun _ => false) spelledSum results ∧
    spelledSum 1 = .exchange false [5] ∧ results 0 = .ok [] ∧
    results 1 = .error "transport failed" := by
  have admitted : ∀ rank, (spelledSum rank).admitted = true := by decide
  rcases called_of_admitted firstBytes (show 2 ≤ maxParticipants by decide)
    (fun _ => rfl : ∀ rank : Fin 2, (fun _ => false) rank = false) admitted with
    ⟨_, goesOn⟩ | ⟨differ, _⟩
  · have ended : ((spelledSum 0).afterAgreement (0 : Fin 2)).brings = none := rfl
    exact ⟨_, goesOn _ (Results.of_absent ended), rfl, rfl, rfl⟩
  · exact absurd (by decide +kernel) differ

end Joshua.ClusterSession
