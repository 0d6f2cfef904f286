/-
Module: Joshua.Proofs.ExpertJobs
Purpose: A forward pass of a job is the local dispatch: what it returns is
  what the local dispatch returns, whatever the placement and the order of
  the answers, and within the limits it refuses nothing else.
Trusted boundary: none
-/
import Joshua.Proofs.ExpertRoutes

namespace Joshua.Experts
open Joshua.Foundation List

variable {V : Type} {hidden : Nat} [Scalar V] {place : Placement hidden}
  {batch : Batch V hidden} {routes : List OwnedRoute}
  {expert : Nat → Row V hidden → Row V hidden} {seq : Nat}
  {order : List Nat}

/-! ## The exchange -/

/-- The request to an owner. -/
def ownerRequest (placement : Placement hidden) (sequence : Nat) (batch : Batch V hidden)
    (routes : List OwnedRoute) (owner : Nat) : Message :=
  requestFor placement sequence batch (ownerRows routes owner)

/-- The request with a value for each of its rows. -/
def ownerFrame (placement : Placement hidden) (sequence : Nat)
    (batch : Batch V hidden) (routes : List OwnedRoute)
    (value : RouteRow → Row V hidden) (owner : Nat) : Frame V hidden where
  message := ownerRequest placement sequence batch routes owner
  values := (ownerRows routes owner).map value

omit [Scalar V] in
lemma requests_eq : (distribute place.ownerCount OwnedRoute.owner routes).map
        (fun routes => requestFor place seq batch (requestRows routes)) =
      (List.range place.ownerCount).map (ownerRequest place seq batch routes) := by
  rw [distribute_eq_map_range, map_map]
  rfl

section
variable (admitted : Admitted place batch) (routed : Routed place batch routes)
include admitted routed

lemma activation_found {owner : Nat} {row : RouteRow} (mem : row ∈ ownerRows routes owner) :
    batch.input[row.route / batch.selected]? = some (activationOf batch row) := by
  obtain ⟨route, inside, -, rfl⟩ := mem_ownerRows.mp mem
  have small : route.row.route / batch.selected < batch.input.length := by
    rw [Nat.div_lt_iff_lt_mul admitted.selected, admitted.input, ← admitted.ids]
    exact routed.number_lt inside
  rw [activationOf, getD_eq_getElem?_getD, List.getElem?_eq_getElem small]
  rfl

lemma bucketValues_eq (owner : Nat) : bucketValues batch (ownerRows routes owner) =
      (ownerRows routes owner).map (activationOf batch) := by
  rw [bucketValues, ← filterMap_eq_map]
  refine filterMap_congr ?_
  intro row mem
  exact activation_found admitted routed mem

lemma request_sendable (small : seq < u64Limit) (owner : Nat) :
    Sendable place (ownerRequest place seq batch routes owner) where
  few := (request_canonical admitted routed owner).few
  sequence := small
  small := by
    intro row mem
    have canonical := request_canonical admitted routed owner
    have route := canonical.admitted row mem
    have index := (List.getElem?_eq_some_iff.mp (canonical.owned row mem)).1
    have routesFew := place.routes_few
    have expertsFew := place.experts_few
    have limit : u64Limit = 2 ^ 64 := rfl
    omega

end

/-- The rows that are sent and the rows that come back are finite. -/
structure FiniteRoutes (expert : Nat → Row V hidden → Row V hidden)
    (batch : Batch V hidden) (routes : List OwnedRoute) : Prop where
  sent : ∀ route ∈ routes, finiteRow (activationOf batch route.row)
  returned : ∀ route ∈ routes, finiteRow (answerOf expert batch route.row)

omit [Scalar V] in
/-- The rows of the requests are the rows of the routes. -/
lemma forall_ownerRows (property : RouteRow → Prop) (routed : Routed place batch routes) :
    (∀ owner, owner < place.ownerCount → ∀ row ∈ ownerRows routes owner, property row) ↔
      ∀ route ∈ routes, property route.row := by
  constructor
  · intro each route mem
    exact each route.owner (owner_lt (routed.owners route mem)) route.row
      (mem_ownerRows.mpr ⟨route, mem, rfl, rfl⟩)
  · intro each owner _ row mem
    obtain ⟨route, inside, -, rfl⟩ := mem_ownerRows.mp mem
    exact each route inside

lemma all_finite_map {rows : List RouteRow} {value : RouteRow → Row V hidden} :
    (rows.map value).all finiteRow ↔ ∀ row ∈ rows, finiteRow (value row) := by
  rw [all_map, all_eq_true]
  rfl

/-- How the owners answer: row by row, where the answer can be sent. -/
def Answers (placement : Placement hidden) (sequence : Nat) (batch : Batch V hidden)
    (routes : List OwnedRoute) (expert : Nat → Row V hidden → Row V hidden)
    (answer : Nat → Frame V hidden → Except ExpertError (Frame V hidden)) : Prop :=
  ∀ owner, answer owner (ownerFrame placement sequence batch routes (activationOf batch) owner) =
      encode placement (ownerRequest placement sequence batch routes owner)
        ((ownerRows routes owner).map (answerOf expert batch))

variable {answer : Nat → Frame V hidden → Except ExpertError (Frame V hidden)}

lemma packets_eq (admitted : Admitted place batch)
    (routed : Routed place batch routes) (small : seq < u64Limit)
    (sent : ∀ route ∈ routes, finiteRow (activationOf batch route.row)) :
    ((List.range place.ownerCount).map
        (ownerRequest place seq batch routes)).mapM (fun request =>
          encode place request (bucketValues batch request.rows)) =
      .ok ((List.range place.ownerCount).map
        (ownerFrame place seq batch routes (activationOf batch))) := by
  rw [mapM_map]
  refine mapM_eq_ok_map ?_
  intro owner mem
  have finite := all_finite_map.mpr
    ((forall_ownerRows _ routed).mpr sent owner (List.mem_range.mp mem))
  have values := bucketValues_eq admitted routed owner
  have fits := encode_eq_ok (request_sendable admitted routed small owner) (length_map _) finite
  exact (congrArg (encode place _) values).trans fits

omit [Scalar V] in
lemma joinAnswers_eq {α : Type} {count : Nat} {result : Nat → Except ExpertError α}
    (all : order.Perm (List.range count)) :
    joinAnswers count order result = (List.range count).mapM result := by
  rw [joinAnswers, fillSlots_of_perm result all, mapM_map]
  rfl

/-- The exchange with one owner, once the packets are there. -/
lemma askOwner_eq {owner : Nat} (lt : owner < place.ownerCount)
    (answers : Answers place seq batch routes expert answer) :
    askOwner place answer ((List.range place.ownerCount).map
        (ownerFrame place seq batch routes (activationOf batch)))
        owner =
      (encode place (ownerRequest place seq batch routes owner)
        ((ownerRows routes owner).map (answerOf expert batch))).bind (decode place) := by
  rw [askOwner, List.getElem?_map, List.getElem?_range lt]
  exact congrArg (fun frame => frame.bind (decode place)) (answers owner)

lemma responses_eq (admitted : Admitted place batch)
    (routed : Routed place batch routes) (small : seq < u64Limit)
    (returned : ∀ route ∈ routes, finiteRow (answerOf expert batch route.row))
    (answers : Answers place seq batch routes expert answer) :
    (List.range place.ownerCount).mapM (askOwner place answer
        ((List.range place.ownerCount).map
          (ownerFrame place seq batch routes (activationOf batch)))) =
      .ok ((List.range place.ownerCount).map fun owner =>
        (ownerRequest place seq batch routes owner,
          (ownerRows routes owner).map (answerOf expert batch))) := by
  refine mapM_eq_ok_map ?_
  intro owner mem
  have inside := List.mem_range.mp mem
  have sendable := request_sendable admitted routed small owner
  have finite := all_finite_map.mpr ((forall_ownerRows _ routed).mpr returned owner inside)
  have same : ((ownerRows routes owner).map (answerOf expert batch)).length =
      (ownerRequest place seq batch routes owner).rows.length :=
    length_map _
  rw [askOwner_eq inside answers, encode_eq_ok sendable same finite]
  exact decode_eq_ok sendable same finite

lemma returned_eq : (((List.range place.ownerCount).map fun owner =>
        (ownerRequest place seq batch routes owner,
          (ownerRows routes owner).map (answerOf expert batch))).zip
      ((List.range place.ownerCount).map (ownerRequest place seq batch routes))).mapM
        (fun (response, request) => returnedRows response request) =
      .ok ((List.range place.ownerCount).map fun owner =>
        (ownerRows routes owner).map fun row => (row, answerOf expert batch row)) := by
  rw [zip_map', mapM_map]
  refine mapM_eq_ok_map ?_
  intro owner _
  refine (if_pos rfl).trans (congrArg Except.ok ?_)
  exact zip_map_self (answerOf expert batch) (ownerRows routes owner)

/-- The rows of all the answers, distributed to their experts. -/
lemma outputs_eq (routed : Routed place batch routes) : (distribute place.expertCount
        (fun entry : RouteRow × Row V hidden => entry.1.expert)
        ((List.range place.ownerCount).map fun owner =>
          (ownerRows routes owner).map fun row => (row, answerOf expert batch row)).flatten).map
        (fun entries => entries.map Prod.snd) =
      outputsOf place expert batch routes := by
  have whole : ((List.range place.ownerCount).map fun owner =>
      (ownerRows routes owner).map fun row => (row, answerOf expert batch row)).flatten =
      (((List.range place.ownerCount).map (ownerRows routes)).flatten).map
        fun row => (row, answerOf expert batch row) := by
    rw [map_flatten, map_map]
    rfl
  rw [whole, outputsOf, distribute_eq_map_range, distribute_eq_map_range, map_map, map_map]
  refine map_congr_left ?_
  intro i mem
  have block := rows_by_expert routed (List.mem_range.mp mem)
  dsimp only [Function.comp_apply]
  rw [← block, filter_map, map_map]
  rfl

section
variable (admitted : Admitted place batch) (routed : Routed place batch routes)
  (small : seq < u64Limit)
include admitted routed small

/-- The exchange gives what the experts return, whatever the order of the
answers. -/
lemma exchange_eq_ok (finite : FiniteRoutes expert batch routes)
    (answers : Answers place seq batch routes expert answer)
    (all : order.Perm (List.range place.ownerCount)) :
    exchange place seq order answer batch routes = .ok (outputsOf place expert batch routes) := by
  rw [exchange]
  dsimp only
  rw [requests_eq, packets_eq admitted routed small finite.sent]
  dsimp only [bind, Except.bind]
  rw [joinAnswers_eq all, responses_eq admitted routed small finite.returned answers]
  dsimp only
  rw [returned_eq]
  exact congrArg Except.ok (outputs_eq routed)

/-- An exchange that returns has sent and received finite rows. -/
lemma finite_of_exchange
    (answers : (∀ route ∈ routes, finiteRow (activationOf batch route.row)) →
      Answers place seq batch routes expert answer)
    (all : order.Perm (List.range place.ownerCount)) {outputs : List (List (Row V hidden))}
    (done : exchange place seq order answer batch routes = .ok outputs) :
    FiniteRoutes expert batch routes := by
  rw [exchange] at done
  dsimp only at done
  rw [requests_eq] at done
  obtain ⟨packets, encoded, rest⟩ := bind_eq_ok.mp done
  have sent : ∀ route ∈ routes, finiteRow (activationOf batch route.row) := by
    refine (forall_ownerRows (fun row => finiteRow (activationOf batch row)) routed).mp ?_
    intro owner inside
    have mem : ownerRequest place seq batch routes owner ∈
        (List.range place.ownerCount).map (ownerRequest place seq batch routes) :=
      mem_map_of_mem (List.mem_range.mpr inside)
    obtain ⟨packet, -, one⟩ := (exists_of_mapM_eq_ok encoded).1 _ mem
    have finite := (finite_of_encode one).1
    have values := bucketValues_eq admitted routed owner
    exact all_finite_map.mp (values ▸ finite)
  refine ⟨sent, (forall_ownerRows (fun row => finiteRow (answerOf expert batch row)) routed).mp ?_⟩
  intro owner inside
  rw [packets_eq admitted routed small sent] at encoded
  cases encoded
  obtain ⟨responses, joined, -⟩ := bind_eq_ok.mp rest
  rw [joinAnswers_eq all] at joined
  obtain ⟨response, -, one⟩ := (exists_of_mapM_eq_ok joined).1 owner (List.mem_range.mpr inside)
  rw [askOwner_eq inside (answers sent)] at one
  obtain ⟨frame, answered, -⟩ := bind_eq_ok.mp one
  exact all_finite_map.mp (finite_of_encode answered).1

end

/-! ## A forward pass -/

section Pass
variable {sum : SumBlocks V hidden}

lemma forwardInner_eq_local (admitted : Admitted place batch)
    (named : ownedRoutes place batch = .ok routes) (finite : FiniteRoutes expert batch routes)
    (answers : Answers place seq batch routes expert answer)
    (all : order.Perm (List.range place.ownerCount)) (last : seq + 1 < u64Limit) :
    forwardInner sum place seq order answer batch =
      (localDispatch sum place expert batch).mapError .dispatch := by
  have routed := routed_of_ownedRoutes named
  rw [forwardInner, checkBatch_eq_ok.mpr admitted, named]
  dsimp only [bind, Except.bind]
  rw [exchange_eq_ok admitted routed (Nat.lt_of_succ_lt last) finite answers all]
  dsimp only
  rw [combine_eq_local expert sum admitted routed]
  cases localDispatch sum place expert batch with
  | error error => rfl
  | ok output => exact if_pos last

/-- What a pass that returns has gone through. -/
lemma of_forwardInner_eq_ok {output : List (Row V hidden)}
    (done : forwardInner sum place seq order answer batch = .ok output) :
    Admitted place batch ∧ ∃ routes outputs, ownedRoutes place batch = .ok routes ∧
        exchange place seq order answer batch routes = .ok outputs ∧
        seq + 1 < u64Limit := by
  rw [forwardInner] at done
  obtain ⟨⟨⟩, checked, done⟩ := bind_eq_ok.mp done
  obtain ⟨routes, named, done⟩ := bind_eq_ok.mp done
  obtain ⟨outputs, exchanged, done⟩ := bind_eq_ok.mp done
  obtain ⟨combined, -, done⟩ := bind_eq_ok.mp done
  refine ⟨checkBatch_eq_ok.mp checked, routes, outputs, named, exchanged, ?_⟩
  by_contra exhausted
  rw [if_neg exhausted] at done
  cases done

/-- An expert that does not exist fails both ways. -/
lemma localDispatch_of_invalid {i : Nat} (mem : i ∈ batch.ids)
    (large : place.expertCount ≤ i) :
    (localDispatch sum place expert batch).toOption = none := by
  obtain ⟨number, listed⟩ : ∃ number, (i, number) ∈ batch.ids.zipIdx := by
    obtain ⟨number, found⟩ := mem_iff_getElem?.mp mem
    exact ⟨number, mk_mem_zipIdx_iff_getElem?.mpr found⟩
  rw [localDispatch]
  split
  · rw [dispatchDecode]
    cases slots : batch.ids.zipIdx.mapM (fun pair =>
        runSlot place.expertCount (localExperts expert) batch.input pair.1 pair.2) with
    | error error => rfl
    | ok outputs =>
      obtain ⟨output, -, ran⟩ := (exists_of_mapM_eq_ok slots).1 _ listed
      dsimp only at ran
      rw [runSlot, if_pos large] at ran
      cases ran
  · have refused : ∃ error, checkExpertIds place.expertCount batch.selected batch.ids =
          .error error := by
      cases found : batch.ids.zipIdx.find? (fun pair => place.expertCount ≤ pair.1) with
      | none =>
        have every := List.find?_eq_none.mp found (i, number) listed
        exact absurd (decide_eq_true large) every
      | some pair =>
        rw [checkExpertIds, found]
        exact ⟨_, rfl⟩
    obtain ⟨error, refused⟩ := refused
    rw [dispatchPrefill, refused]
    rfl

end Pass

/-! ## Jobs -/

/-- What a pass accepts: a batch within the limits whose rows are finite, and
experts that return finite rows for them. -/
structure Accepted (placement : Placement hidden)
    (expert : Nat → Row V hidden → Row V hidden) (batch : Batch V hidden) :
    Prop where
  admitted : Admitted placement batch
  activations : batch.input.all finiteRow
  answers : ∀ number index value, batch.ids[number]? = some index → index < placement.expertCount →
    batch.input[number / batch.selected]? = some value → finiteRow (expert index value)

lemma Accepted.finiteRoutes (accepted : Accepted place expert batch)
    (routed : Routed place batch routes) : FiniteRoutes expert batch routes := by
  have found : ∀ route ∈ routes, batch.input[route.row.route / batch.selected]? =
        some (activationOf batch route.row) := fun route mem =>
    activation_found accepted.admitted routed (mem_ownerRows.mpr ⟨route, mem, rfl, rfl⟩)
  constructor
  · intro route mem
    exact all_eq_true.mp accepted.activations _ (mem_of_getElem? (found route mem))
  · intro route mem
    have small := (List.getElem?_eq_some_iff.mp (routed.owners route mem)).1
    exact accepted.answers _ _ _ (routed.expert_at mem) small (found route mem)

variable [DecidableEq V]

/-- The owners of a job that is in step answer row by row. -/
lemma job_answers {job : Job} (inStep : ∀ owner, job.owners owner = some seq)
    (admitted : Admitted place batch) (routed : Routed place batch routes)
    (small : seq < u64Limit)
    (sent : ∀ route ∈ routes, finiteRow (activationOf batch route.row)) :
    Answers place seq batch routes expert (job.answer place expert) := by
  intro owner
  have finite : ((ownerRows routes owner).map (activationOf batch)).all finiteRow := by
    rw [all_finite_map]
    intro row mem
    obtain ⟨route, inside, -, rfl⟩ := mem_ownerRows.mp mem
    exact sent route inside
  have onePosition : (batch.rows.length == 1) = true →
      ((ownerRows routes owner).map RouteRow.row).dedup.length ≤ 1 := by
    intro single
    rw [← eq_of_beq single]
    exact positions_le admitted routed owner
  have pos : (batch.rows.length == 1) = true →
      ∀ row ∈ ownerRows routes owner, ∀ other ∈ ownerRows routes owner,
        activationOf batch row = activationOf batch other := by
    intro single
    -- the routes of the only row are the numbers below the slots of a row
    have first : ∀ row ∈ ownerRows routes owner, row.route / batch.selected = 0 := by
      intro row mem
      obtain ⟨route, inside, -, rfl⟩ := mem_ownerRows.mp mem
      have number := routed.number_lt inside
      rw [admitted.ids, eq_of_beq single, one_mul] at number
      exact Nat.div_eq_of_lt number
    intro row mem other otherMember
    rw [activationOf, activationOf, first row mem, first other otherMember]
  rw [Job.answer, inStep owner]
  exact serveOne_eq_encode (request_sendable admitted routed small owner)
    (request_canonical admitted routed owner) rfl finite onePosition pos

/-- A pass of a job. -/
def Job.Step (sum : SumBlocks V hidden) (placement : Placement hidden)
    (expert : Nat → Row V hidden → Row V hidden) (job next : Job) : Prop :=
  ∃ order batch, order.Perm (List.range placement.ownerCount) ∧
    next = (job.forward sum placement expert order batch).2

/-- The jobs that passes lead to. -/
def Reached (sum : SumBlocks V hidden) (placement : Placement hidden)
    (expert : Nat → Row V hidden → Row V hidden) (job : Job) : Prop :=
  Relation.ReflTransGen (Job.Step sum placement expert) Job.connected job

/-- The owners of a job that has not failed wait for its sequence. -/
def Synced (job : Job) : Prop :=
  job.coordinator.failed = false → (∀ owner, job.owners owner = some job.coordinator.sequence) ∧
      job.coordinator.sequence < u64Limit

variable {sum : SumBlocks V hidden}

lemma Synced.forward {job : Job} (synced : Synced job) (order : List Nat) (batch : Batch V hidden) :
    Synced (job.forward sum place expert order batch).2 := by
  rw [Job.forward, Coordinator.forward]
  by_cases failed : job.coordinator.failed = true
  · rw [if_pos failed]
    intro notFailed
    exact absurd (failed.symm.trans notFailed) (by decide)
  · rw [if_neg failed]
    cases done : forwardInner sum place job.coordinator.sequence order
        (job.answer place expert) batch with
    | error error =>
      intro notFailed
      cases notFailed
    | ok output =>
      intro _
      have inStep := (synced (Bool.eq_false_of_not_eq_true failed)).1
      obtain ⟨-, -, -, -, -, last⟩ := of_forwardInner_eq_ok done
      refine ⟨?_, last⟩
      intro owner
      dsimp only
      rw [inStep owner]
      rfl

lemma synced_of_reached {job : Job} (reached : Reached sum place expert job) : Synced job := by
  induction reached with
  | refl =>
    intro _
    exact ⟨fun _ => rfl, Nat.lt_of_sub_eq_succ rfl⟩
  | tail _ step ih =>
    obtain ⟨order, batch, -, rfl⟩ := step
    exact ih.forward order batch

/-- A pass that the job refuses returns nothing. -/
lemma toOption_forward {job : Job} (notFailed : job.coordinator.failed = false) :
    (job.forward sum place expert order batch).1.toOption =
      (forwardInner sum place job.coordinator.sequence order
        (job.answer place expert) batch).toOption := by
  rw [Job.forward, Coordinator.forward, if_neg (by rw [notFailed]; decide)]
  cases forwardInner sum place job.coordinator.sequence order (job.answer place expert) batch with
  | error error => rfl
  | ok output => rfl

section
variable {ε δ α : Type} {result : Except ε α}

lemma toOption_mapError (f : ε → δ) : (result.mapError f).toOption = result.toOption := by
  cases result with
  | error error | ok value => rfl

lemma toOption_eq_some {value : α} : result.toOption = some value ↔ result = .ok value := by
  cases result <;> simp [Except.toOption]

end

/-- A pass within the limits is the local dispatch. -/
lemma forward_of_accepted {job : Job} (synced : Synced job)
    (notFailed : job.coordinator.failed = false) (last : job.coordinator.sequence + 1 < u64Limit)
    (all : order.Perm (List.range place.ownerCount))
    (accepted : Accepted place expert batch) :
    (job.forward sum place expert order batch).1.toOption =
      (localDispatch sum place expert batch).toOption := by
  obtain ⟨inStep, small⟩ := synced notFailed
  rw [toOption_forward notFailed]
  by_cases valid : ∀ i ∈ batch.ids, i < place.expertCount
  · obtain ⟨routes, named⟩ := exists_ownedRoutes accepted.admitted valid
    have routed := routed_of_ownedRoutes named
    have finite := accepted.finiteRoutes routed
    rw [forwardInner_eq_local accepted.admitted named finite
      (job_answers inStep accepted.admitted routed small finite.sent) all last, toOption_mapError]
  · push Not at valid
    obtain ⟨i, mem, large⟩ := valid
    rw [localDispatch_of_invalid mem large]
    cases done : forwardInner sum place job.coordinator.sequence order
        (job.answer place expert) batch with
    | error error => rfl
    | ok output =>
      obtain ⟨-, routes, -, named, -, -⟩ := of_forwardInner_eq_ok done
      exact absurd (valid_of_ownedRoutes (routed_of_ownedRoutes named) i mem) (not_lt.mpr large)

/-- What a pass returns the local dispatch returns, whatever was asked. -/
lemma local_of_forward {job : Job} (synced : Synced job)
    (all : order.Perm (List.range place.ownerCount)) {output : List (Row V hidden)}
    (done : (job.forward sum place expert order batch).1 = .ok output) :
    localDispatch sum place expert batch = .ok output := by
  have notFailed : job.coordinator.failed = false := by
    by_contra failed
    rw [Job.forward, Coordinator.forward, if_pos (Bool.eq_true_of_not_eq_false failed)] at done
    cases done
  obtain ⟨inStep, small⟩ := synced notFailed
  have inner : forwardInner sum place job.coordinator.sequence order
      (job.answer place expert) batch = .ok output := by
    rw [← toOption_eq_some, ← toOption_forward notFailed, done]
    rfl
  obtain ⟨admitted, routes, outputs, named, exchanged, last⟩ := of_forwardInner_eq_ok inner
  have routed := routed_of_ownedRoutes named
  have finite := finite_of_exchange admitted routed small
    (job_answers inStep admitted routed small) all exchanged
  rw [forwardInner_eq_local admitted named finite
    (job_answers inStep admitted routed small finite.sent) all last] at inner
  rw [← toOption_eq_some, ← toOption_mapError, inner]
  rfl

/-- Whatever the placement, the batch, the routing and the order of the
answers: what a pass of a job returns is what the local dispatch returns, and
a pass that the job accepts returns what the local dispatch returns. -/
theorem forward_agrees_with_local_dispatch (sum : SumBlocks V hidden) (placement : Placement hidden)
    (expert : Nat → Row V hidden → Row V hidden) {job : Job}
    (reached : Reached sum placement expert job) {order : List Nat}
    (all : order.Perm (List.range placement.ownerCount)) (batch : Batch V hidden) :
    (∀ output, (job.forward sum placement expert order batch).1 = .ok output →
      localDispatch sum placement expert batch = .ok output) ∧
    (job.coordinator.failed = false → job.coordinator.sequence + 1 < u64Limit →
      Accepted placement expert batch → (job.forward sum placement expert order batch).1.toOption =
          (localDispatch sum placement expert batch).toOption) := by
  have synced := synced_of_reached reached
  constructor
  · intro output done
    exact local_of_forward synced all done
  · intro notFailed last accepted
    exact forward_of_accepted synced notFailed last all accepted

/-! ## Two experts on two owners -/

instance wholeNumbers : Scalar Nat where
  zero := 0
  add := Nat.add
  mul := Nat.mul
  isFinite := fun _ => true

lemma finite_wholeNumbers (row : Row Nat hidden) : finiteRow row = true :=
  all_eq_true.mpr fun _ _ => rfl

/-- Expert 0 on owner 1 and expert 1 on owner 0. -/
def crossedPlacement (rows : Nat) : Placement 1 where
  identity := Vector.replicate 32 0
  owners := [1, 0]
  limits :=
    { rows, routes := 4, sessions := 2,
      frameBytes := frameReservation 1 { rows, routes := 4, sessions := 2, frameBytes := 0 } }
  hidden_some := le_refl 1
  experts_some := cons_ne_nil 1 [0]
  experts_few := by decide
  routes_some := Nat.le_of_ble_eq_true rfl
  routes_few := Nat.le_of_ble_eq_true rfl
  frames_fit := le_rfl

/-- Two rows; the second goes to one expert twice. -/
def crossedBatch : Batch Nat 1 where
  rows := [⟨0, 5⟩, ⟨1, 9⟩]
  input := [#v[3], #v[7]]
  selected := 2
  ids := [1, 0, 0, 0]
  weights := [2, 5, 1, 4]

def scaled (index : Nat) (row : Row Nat 1) : Row Nat 1 :=
  row.map fun value => value * (index + 10)

def addBlocks : SumBlocks Nat 1 :=
  fun blocks => blocks.foldl (List.zipWith plus) [zeroRow]

lemma crossedBatch_accepted : Accepted (crossedPlacement 2) scaled crossedBatch where
  admitted :=
    { filled := by decide
      few := by decide
      distinct := by decide
      sessions := by decide
      input := rfl
      ids := rfl
      selected := by decide
      routes := by decide
      weights := rfl
      finite := rfl }
  activations := rfl
  answers := fun _ _ _ _ _ _ => finite_wholeNumbers _

theorem crossedBatch_forwarded : Accepted (crossedPlacement 2) scaled crossedBatch ∧
      (Job.connected.forward addBlocks (crossedPlacement 2) scaled [1, 0] crossedBatch).1.toOption =
      (localDispatch addBlocks (crossedPlacement 2) scaled crossedBatch).toOption :=
  ⟨crossedBatch_accepted, (forward_agrees_with_local_dispatch addBlocks (crossedPlacement 2) scaled
      Relation.ReflTransGen.refl (List.Perm.swap 0 1 []) crossedBatch).2 rfl
      (Nat.lt_of_sub_eq_succ rfl) crossedBatch_accepted⟩

/-- A placement for one row refuses two, which the local dispatch runs. -/
theorem crossedBatch_refused : (Job.connected.forward addBlocks (crossedPlacement 1) scaled [0, 1]
        crossedBatch).1 = .error .rowBound ∧
      localDispatch addBlocks (crossedPlacement 1) scaled crossedBatch =
        .ok [#v[216], #v[350]] := by
  constructor
  · rfl
  · decide +kernel

end Joshua.Experts
