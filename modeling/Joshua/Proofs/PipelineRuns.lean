/-
Module: Joshua.Proofs.PipelineRuns
Purpose: While the wires work, a controller and its workers do what the whole
  model does, under every schedule of the threads: no worker refuses anything,
  all calls come to their ends, and all tables agree. Whatever goes wrong, a
  call that fails behind its validation is the last one.
Trusted boundary: none beyond `Shaped`
-/
import Joshua.Proofs.PipelineStages

namespace Joshua.Pipeline
open Joshua.Foundation List
open Function (forall_update_iff update update_self update_of_ne)

namespace System

variable {S : Type} {plan : Plan} {weights : Nat → Weights S} {compute : Compute S}
  {holds : Nat → S → Nat → Prop}

/-! ## What holds at every moment -/

/-- The workers show the sessions of the whole model. -/
def Shown (plan : Plan) (workers : Nat → Worker S) (whole : Whole S) : Prop :=
  ∀ rank < plan.stages.length, Represents (sessionAt rank) (workers rank) whole

/-- A batch, with the workers as they were before it. -/
structure Batch (plan : Plan) (weights : Nat → Weights S) (compute : Compute S)
    (holds : Nat → S → Nat → Prop) (whole : Whole S)
    (inputs : List Input) (next : Table (Nat × Nat)) (jobs : List Job) (workers : Nat → Worker S) :
    Prop where
  shown : Shown plan workers whole
  admitted : AdmittedAll plan compute holds whole 0 inputs jobs
  next : Represents counters next (whole.feedAll compute inputs)
  held : (whole.feedAll compute inputs).Held plan holds
  continues : whole.Continues compute inputs

/-- How far the controller and the workers have come with a call. -/
def Doing (plan : Plan) (weights : Nat → Weights S) (compute : Compute S)
    (holds : Nat → S → Nat → Prop) (whole : Whole S) (controller : Controller)
    (workers : Nat → Worker S) : Activity S → Prop
  | .idle => Shown plan workers whole
  | .control order rank => rank ≤ plan.stages.length ∧ order.Admitted plan controller whole ∧
      (∀ earlier < rank, Represents (sessionAt earlier) (workers earlier)
        (order.apply (fun rank => (weights rank).newState) whole)) ∧
      ∀ later, rank ≤ later → later < plan.stages.length →
        Represents (sessionAt later) (workers later) whole
  | .batch inputs next jobs conveyor => ∃ before taken sent,
      Batch plan weights compute holds whole inputs next jobs before ∧
      Conveyor.Flow plan.stages.length inputs.length
        (jobAt compute whole inputs jobs)
        (workerAt plan weights compute whole inputs jobs before) conveyor
        taken sent

/-- The calls so far are those of the whole model, and everything shows its
sessions. -/
structure Sound (plan : Plan) (weights : Nat → Weights S) (compute : Compute S)
    (holds : Nat → S → Nat → Prop) (system : System S) (whole : Whole S) : Prop where
  explains : Explains compute plan.stages.length
    (fun rank => (weights rank).newState) whole system.log
  failed : system.controller.failed = false
  cancelled : system.controller.cancelled = false
  sessions : Represents counters system.controller.sessions whole
  fresh : ∀ id, (whole id).isSome → id < system.controller.nextId
  held : whole.Held plan holds
  doing : Doing plan weights compute holds whole system.controller system.workers system.activity

/-! ## The controller's checks -/

variable {whole : Whole S} {system : System S} {controller : Controller}

lemma open_eq_ok {after : Controller} {id : Nat}
    (admitted : controller.open plan = .ok (after, id)) :
    controller.sessions.keys.length < plan.limits.sessions ∧ id = controller.nextId ∧
      after = { controller with nextId := controller.nextId + 1 } := by
  rw [Controller.open] at admitted
  split at admitted
  · cases admitted
  · split_ifs at admitted with room
    cases admitted
    exact ⟨room, rfl, rfl⟩

lemma close_eq_ok {id : Nat} (admitted : controller.close id = .ok ()) :
    (controller.sessions.lookup id).isSome := by
  rw [Controller.close] at admitted
  split at admitted
  · cases admitted
  · split_ifs at admitted with known
    exact known

lemma forwardBatch_eq_ok {inputs : List Input} {next : Table (Nat × Nat)} {jobs : List Job}
    (admitted : controller.forwardBatch plan inputs = .ok (next, jobs)) :
    Controller.admitAll plan controller.sessions 0 inputs = .ok (next, jobs) := by
  rw [Controller.forwardBatch] at admitted
  split at admitted
  · cases admitted
  · split_ifs at admitted
    exact admitted

/-! ## Batches -/

variable {inputs : List Input} {next : Table (Nat × Nat)} {jobs : List Job}
  {workers : Nat → Worker S}

section Batches
variable {line after : Conveyor (Worker S) Job String} {taken sent : Nat → Nat}

section
variable (batch : Batch plan weights compute holds whole inputs next jobs workers)
include batch

lemma Batch.works (shaped : Shaped plan weights compute holds) :
    Conveyor.Works plan.stages.length inputs.length (process plan weights)
      (jobAt compute whole inputs jobs)
      (workerAt plan weights compute whole inputs jobs workers) :=
  Pipeline.works shaped batch.admitted batch.shown

lemma Batch.start :
    Conveyor.Flow plan.stages.length inputs.length
      (jobAt compute whole inputs jobs)
      (workerAt plan weights compute whole inputs jobs workers)
      (.start jobs workers : Conveyor (Worker S) Job String) (fun _ => 0)
      (fun _ => 0) :=
  Conveyor.start_flow (jobs_eq batch.admitted) fun _ _ => rfl

variable (flow : Conveyor.Flow plan.stages.length inputs.length (jobAt compute whole inputs jobs)
    (workerAt plan weights compute whole inputs jobs workers) line taken sent)
  (finished : line.Finished plan.stages.length)
include flow finished

/-- A batch whose threads have ended has its outputs. -/
lemma Batch.result : batchResult plan inputs.length line =
      .ok (whole.outputs compute plan.stages.length inputs) := by
  have fine : firstError plan.stages.length line = none := by
    rw [firstError, List.findSome?_eq_none_iff]
    intro stage lt
    have fine := flow.not_failed (mem_range.mp lt)
    cases thread : line.thread stage with
    | failed error => exact absurd thread (fine error)
    | waiting | holding | sending | done => rfl
  obtain ⟨collected, _⟩ := flow.finished finished
  rw [Conveyor.between, Nat.sub_zero, ← range_eq_range'] at collected
  have indices (number : Nat) (lt : number < inputs.length) :
      (jobAt compute whole inputs jobs plan.stages.length number).index = number := by
    obtain ⟨tape, _, _, _, job_eq⟩ := jobAt_eq batch.admitted lt
    rw [job_eq]
  rw [batchResult, fine]
  simp only
  rw [collected, length_map, length_range, if_neg (by simp), outputsOf_eq _ indices, outputs_eq]
  rfl

/-- Behind a batch every worker shows the sessions behind it. -/
lemma Batch.shown_after (shaped : Shaped plan weights compute holds) :
    Shown plan line.worker (whole.feedAll compute inputs) := by
  intro rank inside
  obtain ⟨worker, _⟩ := (flow.finished finished).2 rank inside
  have shown := represents_workerAt shaped batch.admitted inside (batch.shown rank inside) le_rfl
  rw [worker]
  rw [Whole.before, take_length] at shown
  exact shown

end

end Batches

/-! ## Steps -/

lemma isSome_feedAll (compute : Compute S) (whole : Whole S) (inputs : List Input) (id : Nat) :
    ((whole.feedAll compute inputs) id).isSome = (whole id).isSome := by
  induction inputs generalizing whole with
  | nil => rfl
  | cons input rest ih =>
    rw [Whole.feedAll, foldl_cons, ← Whole.feedAll, ih]
    cases known : whole input.session with
    | none => rw [Whole.feed, known]
    | some tape =>
      rw [feed_eq known, Function.update_apply]
      split_ifs with same
      · rw [same, known]
        rfl
      · rfl

/-- An order that has come to all stages. -/
lemma Sound.carried (shaped : Shaped plan weights compute holds) {order : Order}
    (sound : Sound plan weights compute holds system whole)
    (active : system.activity = .control order plan.stages.length) :
    Sound plan weights compute holds { system with
      controller := system.controller.carried order
      activity := .idle
      log := system.log ++ [order.event] }
      (order.apply (fun rank => (weights rank).newState) whole) := by
  have doing := sound.doing
  rw [active] at doing
  obtain ⟨_, admitted, shown, _⟩ := doing
  cases order with
  | «open» id =>
    obtain ⟨unknown, before, _⟩ := admitted
    refine ⟨sound.explains.opened unknown, sound.failed, sound.cancelled,
      sound.sessions.insert id ⟨0, 0, _⟩, ?_, sound.held.apply shaped (.open id), shown⟩
    exact (forall_update_iff whole fun j tape => tape.isSome → _).mpr
      ⟨fun _ => before, fun j _ => sound.fresh j⟩
  | close id =>
    refine ⟨sound.explains.closed admitted, sound.failed, sound.cancelled,
      sound.sessions.erase id, ?_, sound.held.apply shaped (.close id), shown⟩
    exact (forall_update_iff whole fun j tape => tape.isSome → _).mpr
      ⟨fun known => (by cases known), fun j _ => sound.fresh j⟩

/-- An order at one stage. -/
lemma Sound.rpc {order : Order} {rank : Nat} {worker : Worker S} {values : Values}
    (sound : Sound plan weights compute holds system whole)
    (active : system.activity = .control order rank) (lt : rank < plan.stages.length)
    (executed : execute plan rank (weights rank) (system.workers rank)
      (Packet.control order.command) = .ok (worker, values)) :
    Sound plan weights compute holds { system with
      workers := update system.workers rank worker
      activity := .control order (rank + 1) } whole := by
  have doing := sound.doing
  rw [active] at doing
  obtain ⟨_, admitted, done, waiting⟩ := doing
  obtain ⟨after, right, shown⟩ := execute_order sound.sessions admitted (waiting rank le_rfl lt)
  cases executed.symm.trans right
  refine { sound with
    doing := ⟨lt, admitted, fun earlier earlier_lt => ?_, fun later later_ge later_lt => ?_⟩ }
  · by_cases same : earlier = rank
    · subst same
      simp only [update_self]
      exact shown
    · simp only [update_of_ne same]
      exact done earlier (by omega)
  · have differ : later ≠ rank := by omega
    simp only [update_of_ne differ]
    exact waiting later (by omega) later_lt

lemma Step.sound (shaped : Shaped plan weights compute holds)
    {system after : System S} (step : Step plan weights system after)
    {whole : Whole S} (sound : Sound plan weights compute holds system whole) :
    ∃ whole, Sound plan weights compute holds after whole := by
  have doing := sound.doing
  cases step with
  | @«open» controller id idle admitted =>
    rw [idle] at doing
    obtain ⟨room, rfl, rfl⟩ := open_eq_ok admitted
    have unknown : whole system.controller.nextId = none := by
      rw [← Option.not_isSome_iff_eq_none]
      intro known
      exact absurd (sound.fresh _ known) (lt_irrefl _)
    refine ⟨whole, sound.explains, sound.failed, sound.cancelled,
      sound.sessions, fun id known => Nat.lt_succ_of_lt (sound.fresh id
        known), sound.held, Nat.zero_le _, ⟨unknown, Nat.lt_succ_self _, room⟩,
      nofun, fun later _ => doing later⟩
  | @close id idle admitted =>
    rw [idle] at doing
    have known := close_eq_ok admitted
    rw [sound.sessions id, Option.isSome_map] at known
    exact ⟨whole, { sound with
      doing := ⟨Nat.zero_le _, known, nofun, fun later _ => doing later⟩ }⟩
  | rpc active inside executed => exact ⟨whole, sound.rpc active inside executed⟩
  | @refuse order rank msg active inside refused worker =>
    rw [active] at doing
    obtain ⟨_, admitted, _, waiting⟩ := doing
    obtain ⟨after, right, _⟩ := execute_order sound.sessions admitted (waiting rank le_rfl inside)
    cases refused.symm.trans right
  | carried active => exact ⟨_, sound.carried shaped active⟩
  | @forward inputs next jobs idle admitted =>
    rw [idle] at doing
    obtain ⟨all, next_eq, held, continues⟩ := admitAll_eq_ok shaped
      sound.sessions sound.held (forwardBatch_eq_ok admitted)
    have batch : Batch plan weights compute holds whole inputs next jobs
        system.workers := ⟨doing, all, next_eq, held, continues⟩
    exact ⟨whole, { sound with doing := ⟨_, _, _, batch, batch.start⟩ }⟩
  | move active move =>
    rw [active] at doing
    obtain ⟨before, taken, sent, batch, flow⟩ := doing
    obtain ⟨taken, sent, flow⟩ := move.flow (batch.works shaped) flow
    exact ⟨whole, { sound with doing := ⟨before, taken, sent, batch, flow⟩ }⟩
  | refuseJob active refusal =>
    rw [active] at doing
    obtain ⟨before, taken, sent, batch, flow⟩ := doing
    exact absurd refusal (flow.not_refused (batch.works shaped))
  | @succeed inputs next jobs line outputs active finished result =>
    rw [active] at doing
    obtain ⟨before, taken, sent, batch, flow⟩ := doing
    cases result.symm.trans (batch.result flow finished)
    refine ⟨whole.feedAll compute inputs, sound.explains.forwarded batch.continues, sound.failed,
      sound.cancelled, batch.next, fun id known => ?_, batch.held,
      batch.shown_after flow finished shaped⟩
    rw [isSome_feedAll] at known
    exact sound.fresh id known
  | «break» active finished result =>
    rw [active] at doing
    obtain ⟨before, taken, sent, batch, flow⟩ := doing
    cases result.symm.trans (batch.result flow finished)

lemma run_sound (shaped : Shaped plan weights compute holds)
    (run : Relation.ReflTransGen (Step plan weights) start system) :
    ∃ whole, Sound plan weights compute holds system whole := by
  induction run with
  | refl =>
    refine ⟨Whole.empty, .nil, rfl, rfl, represents_empty,
      fun id known => (by cases known), fun id tape known => (by cases known),
      fun rank _ => represents_empty⟩
  | tail _ step ih =>
    obtain ⟨whole, sound⟩ := ih
    exact step.sound shaped sound

/-! ## What the stages receive -/

section Receive

lemma Batch.submitted (batch : Batch plan weights compute holds whole inputs next jobs workers)
    (rank : Nat) :
    (Conveyor.between (jobAt compute whole inputs jobs) rank 0
        inputs.length).map (fun job => (job.input, job.index)) =
      inputs.zipIdx := by
  refine ext_getElem ?_ fun number left right => ?_
  · simp [Conveyor.between]
  · have number_lt : number < inputs.length := by simpa using right
    obtain ⟨tape, _, _, _, job_eq⟩ := jobAt_eq batch.admitted number_lt
    simp only [Conveyor.between, map_map, getElem_map,
      getElem_range', zero_add, one_mul, Function.comp_apply, getElem_zipIdx]
    rw [job_eq, getD_eq_getElem?_getD, List.getElem?_eq_getElem number_lt]
    rfl

end Receive

/-! ## Calls come to their ends -/

/-- How many steps a call still has at most. -/
def remaining (plan : Plan) (system : System S) : Nat :=
  match system.activity with
  | .idle => 0
  | .control _ rank => plan.stages.length - rank + 1
  | .batch _ _ _ conveyor => conveyor.weight plan.stages.length + 1

variable {after : System S}

section
variable (shaped : Shaped plan weights compute holds)
  (sound : Sound plan weights compute holds system whole) (busy : system.activity ≠ .idle)
include shaped sound busy

lemma Step.remaining_lt (step : Step plan weights system after) :
    after.remaining plan < system.remaining plan := by
  cases step with
  | «open» idle | close idle | forward idle => exact absurd idle busy
  | @rpc order rank worker values active inside executed
  | refuse active | carried active =>
    simp only [remaining, active]
    omega
  | move active move =>
    simp only [remaining, active]
    exact Nat.succ_lt_succ move.weight_lt
  | refuseJob active refusal =>
    have doing := sound.doing
    rw [active] at doing
    obtain ⟨before, taken, sent, batch, flow⟩ := doing
    exact absurd refusal (flow.not_refused (batch.works shaped))
  | succeed active | «break» active =>
    simp only [remaining, active]
    omega

/-- A call that has begun has a next step. -/
lemma Sound.progress (deep : 0 < plan.limits.queueDepth) :
    ∃ after, Step plan weights system after := by
  have doing := sound.doing
  cases active : system.activity with
  | idle => exact absurd active busy
  | control order rank =>
    rw [active] at doing
    obtain ⟨rank_le, admitted, _, waiting⟩ := doing
    rcases Nat.lt_or_eq_of_le rank_le with inside | rfl
    · obtain ⟨worker, executed, _⟩ := execute_order sound.sessions admitted
        (waiting rank le_rfl inside)
      exact ⟨_, .rpc active inside executed⟩
    · exact ⟨_, .carried active⟩
  | batch inputs next jobs line =>
    rw [active] at doing
    obtain ⟨before, taken, sent, batch, flow⟩ := doing
    rcases flow.progress (batch.works shaped) deep with finished | moves
    · exact ⟨_, .succeed active finished (batch.result flow finished)⟩
    · obtain ⟨after, move⟩ := moves
      exact ⟨_, .move active move⟩

end

/-! ## Failed calls -/

/-- A controller that refuses every call. -/
structure Refuses (plan : Plan) (controller : Controller) : Prop where
  «open» : ∃ message, controller.open plan = .error message
  close : ∀ id, ∃ message, controller.close id = .error message
  forward : ∀ inputs, ∃ message, controller.forwardBatch plan inputs = .error message

lemma refuses_of_failed (failed : controller.failed = true) : Refuses plan controller := by
  have ready : controller.ready =
      .error "pipeline failed; restart every worker with a fresh job UUID" := by
    rw [Controller.ready, failed, if_pos (by simp)]
  exact ⟨⟨_, by rw [Controller.open, ready]⟩, fun id => ⟨_, by rw [Controller.close, ready]⟩,
    fun inputs => ⟨_, by rw [Controller.forwardBatch, ready]⟩⟩

/-- A call that ends without a result has failed the controller. -/
lemma AnyStep.failed (step : AnyStep plan weights system after) (idle : after.activity = .idle)
    (noResult : after.log = system.log) : after.controller.failed = true := by
  cases step with
  | step step =>
    cases step with
    | «open» | close | forward | rpc | move | refuseJob => cases idle
    | refuse | «break» => rfl
    | carried | succeed => simp at noResult
  | loss loss =>
    cases loss with
    | lose => rfl
    | loseJob => cases idle

/-- Behind a failed call nothing happens any more. -/
lemma run_failed {later : System S}
    (run : Relation.ReflTransGen (AnyStep plan weights) system later)
    (idle : system.activity = .idle) (failed : system.controller.failed = true) :
    later = system := by
  induction run with
  | refl => rfl
  | tail _ step ih =>
    subst ih
    have refuses : Refuses plan _ := refuses_of_failed failed
    cases step with
    | step step =>
      cases step with
      | «open» _ admitted =>
        obtain ⟨msg, refused⟩ := refuses.open
        cases refused.symm.trans admitted
      | close _ admitted =>
        obtain ⟨msg, refused⟩ := refuses.close _
        cases refused.symm.trans admitted
      | forward _ admitted =>
        obtain ⟨msg, refused⟩ := refuses.forward _
        cases refused.symm.trans admitted
      | rpc active | refuse active | carried active | move active
      | refuseJob active | succeed active | «break» active => cases idle.symm.trans active
    | loss loss =>
      cases loss with
      | lose active | loseJob active => cases idle.symm.trans active

/-! ## The pipeline -/

/-- While the wires work, under every schedule of the threads: each stage
receives the inputs of a batch in the order in which they were submitted; no
worker refuses a command; all calls that have returned are those of the whole
model, so that each output is the composition of all stages on its input; and
between two calls every worker has the controller's sessions with the same
positions and sequence numbers. A call that has begun always goes on, for a
bounded number of steps. Whatever happens, the controller refuses every call
behind one that has failed after its validation. -/
theorem pipeline_runs (shaped : Shaped plan weights compute holds)
    (deep : 0 < plan.limits.queueDepth) :
    (∀ system : System S, Relation.ReflTransGen (Step plan weights) start system →
      (∀ inputs next jobs conveyor, system.activity = .batch inputs next jobs conveyor →
        ∀ rank < plan.stages.length,
          (conveyor.received rank).map (fun job => (job.input, job.index)) <+: inputs.zipIdx ∧
          (conveyor.Finished plan.stages.length →
            (conveyor.received rank).map (fun job => (job.input, job.index)) = inputs.zipIdx) ∧
          ∀ job, conveyor.thread rank = .holding job →
            ∃ result, execute plan rank (weights rank) (conveyor.worker rank)
              (Packet.withValues (.forward job.id job.sequence job.offset job.tokens)
                job.values) = .ok result) ∧
      (∀ order rank, system.activity = .control order rank → rank < plan.stages.length →
        ∃ result, execute plan rank (weights rank) (system.workers rank)
          (Packet.control order.command) = .ok result) ∧
      (∃ whole, Explains compute plan.stages.length
        (fun rank => (weights rank).newState) whole system.log) ∧
      (system.activity = .idle → ∀ rank < plan.stages.length, ∀ id,
          ((system.workers rank).lookup id).map
            (fun session => (session.position, session.sequence)) =
          system.controller.sessions.lookup id) ∧
      (system.activity ≠ .idle → (∃ after, Step plan weights system after) ∧
        ∀ after, Step plan weights system after → after.remaining plan < system.remaining plan)) ∧
    (∀ system after : System S, Relation.ReflTransGen (AnyStep plan weights) start system →
      AnyStep plan weights system after →
      system.activity ≠ .idle → after.activity = .idle →
      after.log = system.log →
      ∀ later, Relation.ReflTransGen (AnyStep plan weights) after later →
        (∃ message, later.controller.open plan = .error message) ∧
        (∀ id, ∃ message, later.controller.close id = .error message) ∧
        ∀ inputs, ∃ message, later.controller.forwardBatch plan inputs = .error message) := by
  refine ⟨fun system run => ?_, fun system after _ step _ idle noResult later run => ?_⟩
  · obtain ⟨whole, sound⟩ := run_sound shaped run
    have doing := sound.doing
    refine ⟨fun inputs next jobs conveyor active rank inside => ?_,
      fun order rank active inside => ?_, ⟨whole, sound.explains⟩,
      fun idle rank inside id => ?_, fun busy =>
        ⟨sound.progress shaped busy deep, fun after step => step.remaining_lt shaped sound busy⟩⟩
    · rw [active] at doing
      obtain ⟨before, taken, sent, batch, flow⟩ := doing
      have submitted := batch.submitted rank
      refine ⟨?_, fun finished => ?_, fun job holds => ?_⟩
      · rw [← submitted]
        exact (flow.received_isPrefix inside).map _
      · rw [((flow.finished finished).2 rank inside).2, submitted]
      · have worked := flow.works (batch.works shaped) inside holds
        rw [process] at worked
        cases executed : execute plan rank (weights rank)
            (conveyor.worker rank) (Packet.withValues
              (.forward job.id job.sequence job.offset job.tokens)
              job.values) with
        | ok result => exact ⟨result, rfl⟩
        | error message =>
          rw [executed] at worked
          cases worked
    · rw [active] at doing
      obtain ⟨_, admitted, _, waiting⟩ := doing
      obtain ⟨worker, executed, _⟩ := execute_order sound.sessions admitted
        (waiting rank le_rfl inside)
      exact ⟨_, executed⟩
    · rw [idle] at doing
      rw [doing rank inside id, sound.sessions id, Option.map_map]
      rfl
  · have failed := step.failed idle noResult
    rw [run_failed run idle failed]
    have refuses : Refuses plan _ := refuses_of_failed failed
    exact ⟨refuses.open, refuses.close, refuses.forward⟩

/-! A pipeline of two stages. -/

def pairPlan : Plan where
  version := 1
  modelSha256 := ""
  layers := 2
  hidden := 1
  vocab := 4
  limits := ⟨8, 4, 1, 2, 2, 1, 1⟩
  stages := [⟨0, 1, 1⟩, ⟨1, 2, 1⟩]

/-- The stages count tokens and tell what they have counted. -/
def pairCompute : Compute Nat := fun rank state tokens values _ =>
  (state + tokens.length, List.replicate (outputLength pairPlan rank tokens)
    (UInt32.ofNat (state + values.length)))

/-- They refuse an input whose positions do not follow those they have. -/
def pairWeights (rank : Nat) : Weights Nat where
  newState := 0
  forward := fun state tokens values offset _ =>
    if state < offset then .error "attention cache ends before the input offset"
    else .ok (pairCompute rank state tokens values offset)

lemma pair_shaped :
    Shaped pairPlan pairWeights pairCompute fun _ state offset => state = offset where
  fresh := fun _ _ => rfl
  forward := fun _ _ _ tokens _ _ held _ _ _ _ =>
    ⟨if_neg held.not_lt, length_replicate, congrArg (· + tokens.length) held⟩

/-- One session at its start. -/
def pairSessions : Table (Nat × Nat) :=
  @AList.insert Nat (fun _ => Nat × Nat) _ 0 (0, 0) ∅

/-- A run in which a session is opened. -/
lemma pair_opened : ∃ system : System Nat,
    Relation.ReflTransGen (Step pairPlan pairWeights) start system ∧
    system.log = [.opened 0] ∧ system.activity = .idle ∧
    system.controller.sessions = pairSessions ∧
    system.controller.ready = .ok () := by
  have run := Relation.ReflTransGen.single (@Step.open Nat pairPlan
    pairWeights start ⟨∅, 1, false, false⟩ 0 rfl rfl)
  have run := run.tail (@Step.rpc _ _ _ _ (.open 0) 0
    ((∅ : Worker Nat).insert 0 ⟨0, 0, 0⟩) [] rfl (by decide) rfl)
  have run := run.tail (@Step.rpc _ _ _ _ (.open 0) 1
    ((∅ : Worker Nat).insert 0 ⟨0, 0, 0⟩) [] rfl (by decide) rfl)
  have run := run.tail (.carried rfl)
  exact ⟨_, run, rfl, rfl, rfl, rfl⟩

/-- Behind it a batch begins and goes on. -/
theorem pipeline_runs_of_pair : ∃ system after : System Nat,
    Relation.ReflTransGen (Step pairPlan pairWeights) start system ∧
    (∃ next jobs conveyor, system.activity = .batch [⟨0, 0, [3, 1]⟩] next jobs conveyor) ∧
    Step pairPlan pairWeights system after ∧
    after.remaining pairPlan < system.remaining pairPlan := by
  obtain ⟨opened, run, _, idle, sessions, ready⟩ := pair_opened
  obtain ⟨next, jobs, admitted⟩ : ∃ next jobs,
      opened.controller.forwardBatch pairPlan [⟨0, 0, [3, 1]⟩] = .ok (next, jobs) := by
    rw [Controller.forwardBatch, ready, sessions]
    exact ⟨_, _, rfl⟩
  have run := run.tail (.forward idle admitted)
  obtain ⟨_, _, _, _, goesOn⟩ := (pipeline_runs pair_shaped (by decide)).1 _ run
  obtain ⟨⟨after, step⟩, less⟩ := goesOn (by simp)
  exact ⟨_, after, run, ⟨_, _, _, rfl⟩, step, less after step⟩

/-- A call that fails in its validation is followed by one that returns. -/
theorem opened_after_refusal : (start : System Nat).controller.close 7 = .error "unknown session" ∧
    ∃ system : System Nat, Relation.ReflTransGen (Step pairPlan pairWeights) start system ∧
      system.log = [.opened 0] := by
  obtain ⟨system, run, log, _⟩ := pair_opened
  exact ⟨rfl, system, run, log⟩

end System

end Joshua.Pipeline
