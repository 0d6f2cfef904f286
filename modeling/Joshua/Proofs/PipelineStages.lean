/-
Module: Joshua.Proofs.PipelineStages
Purpose: The sessions of a worker over every sequence of commands, and what
  the controller admits no worker refuses: the tables of the controller and of
  every worker show the same sessions of the whole model, before and behind
  each command and each job of a batch.
Trusted boundary: on a state that holds the positions before an input of the
  right shape, the stages compute what they compute, in the right shape
  (`Shaped`)
-/
import Joshua.Model.Pipeline

namespace Joshua.Pipeline
open List

variable {S : Type}

section
variable {plan : Plan} {rank : Nat} {weights : Weights S} {broken : S → List Token → S}
  {worker after : Worker S} {packet : Packet}

/-- Accepted `Forward`s: the sequence numbers count from zero, every offset is
the end of the one before, and no length is zero; up to `position` and
`sequence`. -/
structure Tiles (accepted : List (Nat × Nat × Nat)) (position sequence : Nat) : Prop where
  places : ∀ place entry, accepted[place]? = some entry → entry.1 = place ∧
    entry.2.1 = ((accepted.take place).map fun entry => entry.2.2).sum ∧
    0 < entry.2.2
  position_eq : position = (accepted.map fun entry => entry.2.2).sum
  sequence_eq : sequence = accepted.length

lemma Tiles.nil : Tiles [] 0 0 :=
  ⟨by simp, rfl, rfl⟩

variable {accepted : List (Nat × Nat × Nat)} {position sequence : Nat}

lemma Tiles.concat {length : Nat} (tiles : Tiles accepted position sequence) (pos : 0 < length) :
    Tiles (accepted ++ [(sequence, position, length)]) (position + length) (sequence + 1) := by
  obtain ⟨places, rfl, rfl⟩ := tiles
  refine ⟨fun place entry found => ?_, by simp, by simp⟩
  rcases lt_or_ge place accepted.length with inside | last
  · rw [List.getElem?_append_left inside] at found
    rw [take_append_of_le_length (le_of_lt inside)]
    exact places place entry found
  · rw [List.getElem?_append_right last, List.getElem?_singleton] at found
    split at found
    next first =>
      cases found
      obtain rfl : place = accepted.length := by omega
      exact ⟨rfl, by rw [take_left], pos⟩
    next => cases found

/-- No length is zero, so there are no more `Forward`s than positions. -/
lemma Tiles.sequence_le (tiles : Tiles accepted position sequence) : sequence ≤ position := by
  obtain ⟨places, rfl, rfl⟩ := tiles
  have pos : ∀ length ∈ accepted.map fun entry => entry.2.2, 1 ≤ length := by
    refine forall_mem_map.mpr fun entry mem => ?_
    obtain ⟨place, found⟩ := List.getElem?_of_mem mem
    exact (places place entry found).2.2
  have bound := card_nsmul_le_sum _ _ pos
  simpa using bound

/-- What holds of a worker behind some commands. -/
structure Serves (plan : Plan) (served : Served S) : Prop where
  few : served.worker.keys.length ≤ plan.limits.sessions
  tiles : ∀ id session, served.worker.lookup id = some session →
    Tiles (served.accepted id) session.position session.sequence ∧
      session.position ≤ plan.limits.context

def Session.counters (session : Session S) : Nat × Nat :=
  (session.position, session.sequence)

/-- What a command can do: it is rejected and no session has other counters, or
it does what it says. -/
inductive Effect (plan : Plan) (worker : Worker S) :
    Command → Worker S → Except String (List Float32Bits) → Prop
  | rejected {command after message}
      (same : ∀ id, (after.lookup id).map Session.counters =
        (worker.lookup id).map Session.counters)
      (keys : after.keys.length = worker.keys.length) :
      Effect plan worker command after (.error message)
  | opened {id} (state : S) (unknown : worker.lookup id = none)
      (room : worker.keys.length < plan.limits.sessions) :
      Effect plan worker (.open id) (worker.insert id ⟨state, 0, 0⟩) (.ok [])
  | closed {id} (known : (worker.lookup id).isSome) :
      Effect plan worker (.close id) (worker.erase id) (.ok [])
  | moved {id tokens session} (state : S) (output : List Float32Bits)
      (filled : tokens ≠ [])
      (context : session.position + tokens.length ≤ plan.limits.context)
      (known : worker.lookup id = some session) :
      Effect plan worker
        (.forward id session.sequence session.position tokens)
        (worker.insert id ⟨state, session.position + tokens.length,
          session.sequence + 1⟩) (.ok output)

lemma length_insert_known {id : Nat} {session : Session S}
    (known : worker.lookup id = some session) (other : Session S) :
    (worker.insert id other).keys.length = worker.keys.length := by
  have mem : id ∈ worker.keys := by
    rw [← AList.mem_keys, ← AList.lookup_isSome, known]
    rfl
  rw [AList.keys_insert, length_cons, length_erase_of_mem mem]
  have filled := length_pos_of_mem mem
  omega

lemma executeInPlace_effect
    (ordered : ∀ id session, worker.lookup id = some session →
      session.sequence ≤ session.position) :
    Effect plan worker packet.command
      (executeInPlace plan rank weights broken worker packet).1
      (executeInPlace plan rank weights broken worker packet).2 := by
  have stays : ∀ {command msg}, Effect plan worker command worker (.error msg) :=
    .rejected (fun _ => rfl) rfl
  obtain ⟨command, values, bytes⟩ := packet
  cases command with
  | «open» id =>
    simp only [executeInPlace]
    split_ifs with unused room
    · exact .opened _ unused.2 room
    · exact stays
    · exact stays
  | close id =>
    simp only [executeInPlace]
    split_ifs with known
    · exact .closed known.2
    · exact stays
  | forward id sequence offset tokens =>
    simp only [executeInPlace]
    split_ifs with sized vocab fits context shape
    · exact stays
    · cases known : worker.lookup id with
      | none => exact stays
      | some session =>
        simp only
        by_cases here : offset = session.position ∧ sequence = session.sequence
        · rw [if_neg (not_not.mpr here)]
          obtain ⟨rfl, rfl⟩ := here
          cases weights.forward session.state tokens values session.position plan.hidden with
          | error msg =>
            refine .rejected (fun other => ?_) (length_insert_known known _)
            by_cases same : other = id
            · subst same
              rw [AList.lookup_insert, known]
              rfl
            · rw [AList.lookup_insert_ne same]
          | ok found =>
            -- every command before has moved the position
            have early := ordered id session known
            have pos := length_pos_iff.mpr sized.1
            simp only
            rw [if_neg (not_not.mpr (by omega))]
            exact .moved _ _ sized.1 context known
        · rw [if_pos here]
          exact stays
    all_goals exact stays
  | _ => exact stays

section Runs
variable {served : Served S}

lemma Serves.effect (serves : Serves plan served) (rank : Nat)
    (weights : Weights S) (broken : S → List Token → S) (packet : Packet) :
    Effect plan served.worker packet.command
      (executeInPlace plan rank weights broken served.worker packet).1
      (executeInPlace plan rank weights broken served.worker packet).2 :=
  executeInPlace_effect fun id session known => (serves.tiles id session known).1.sequence_le

/-- A session with its accepted commands is put into the table. -/
lemma Serves.insert (serves : Serves plan served) {id : Nat} {session : Session S}
    {entries : List (Nat × Nat × Nat)}
    (few : (served.worker.insert id session).keys.length ≤ plan.limits.sessions)
    (tiles : Tiles entries session.position session.sequence ∧
      session.position ≤ plan.limits.context) :
    Serves plan ⟨served.worker.insert id session, Function.update served.accepted id entries⟩ := by
  refine ⟨few, fun other found here => ?_⟩
  by_cases same : other = id
  · subst same
    rw [AList.lookup_insert] at here
    cases here
    simpa only [Function.update_self] using tiles
  · rw [AList.lookup_insert_ne same] at here
    simpa only [Function.update_of_ne same] using serves.tiles other found here

/-- What a command can do keeps what holds. -/
lemma Serves.of_effect {command : Command} {result : Except String Values}
    (serves : Serves plan served) (effect : Effect plan served.worker command after result) :
    Serves plan ⟨after, recorded served.accepted command result⟩ := by
  cases effect with
  | rejected same keys =>
    refine ⟨keys.le.trans serves.few, fun id session known => ?_⟩
    have before := same id
    rw [known] at before
    obtain ⟨old, found, equal⟩ := Option.map_eq_some_iff.mp before.symm
    obtain ⟨position, sequence⟩ := Prod.mk.inj equal
    have held := serves.tiles id old found
    rwa [position, sequence] at held
  | @opened id state unknown room =>
    refine serves.insert ?_ ⟨.nil, Nat.zero_le _⟩
    have absent : id ∉ served.worker.keys := by
      rwa [← AList.mem_keys, ← AList.lookup_eq_none]
    rw [AList.keys_insert, erase_of_not_mem absent]
    exact room
  | @closed id known =>
    refine ⟨?_, fun other session here => ?_⟩
    · rw [AList.keys_erase]
      exact le_trans (length_erase_le ..) serves.few
    · by_cases same : other = id
      · subst same
        rw [AList.lookup_erase] at here
        cases here
      · rw [AList.lookup_erase_ne same] at here
        exact serves.tiles other session here
  | @moved id tokens session state output filled context known =>
    refine serves.insert ?_
      ⟨(serves.tiles id session known).1.concat (length_pos_iff.mpr filled), context⟩
    rw [length_insert_known known]
    exact serves.few

lemma run_serves (rank : Nat) (weights : Weights S) (broken : S → List Token → S)
    (packets : List Packet) : Serves plan (Served.run plan rank weights broken packets) := by
  rw [Served.run]
  induction packets using List.reverseRecOn with
  | nil => exact ⟨Nat.zero_le _, fun id session known => nomatch known⟩
  | append_singleton packets packet ih =>
    rw [foldl_append]
    exact ih.of_effect (ih.effect rank weights broken packet)

/-- Behind any commands: there are no more sessions than the limit; the
`Forward`s that a session has accepted have the sequence numbers from zero on
and tile what lies before its position, which is within the context; and a
command that is then rejected changes no session's position or sequence. -/
theorem sessions_tile (plan : Plan) (rank : Nat) (weights : Weights S)
    (broken : S → List Token → S) (packets : List Packet) :
    (Served.run plan rank weights broken packets).worker.keys.length ≤ plan.limits.sessions ∧
    (∀ id session, (Served.run plan rank weights broken packets).worker.lookup id = some session →
      Tiles ((Served.run plan rank weights broken packets).accepted id)
        session.position session.sequence ∧
      session.position ≤ plan.limits.context) ∧
    ∀ packet after message, executeInPlace plan rank weights broken
        (Served.run plan rank weights broken packets).worker packet = (after, .error message) →
      ∀ id, (after.lookup id).map Session.counters =
        ((Served.run plan rank weights broken packets).worker.lookup id).map Session.counters := by
  have serves : Serves plan _ := run_serves rank weights broken packets
  refine ⟨serves.few, serves.tiles, fun packet after message rejected => ?_⟩
  have effect := serves.effect rank weights broken packet
  rw [rejected] at effect
  generalize packet.command = command at effect
  cases effect with
  | rejected same keys => exact same

end Runs

end

open Joshua.Foundation List
open Function (update update_self update_of_ne)

/-! ## Tables that show the sessions of the whole model -/

/-- A table shows a view of every session. -/
def Represents {β : Type} (view : Tape S → β) (table : Table β) (whole : Whole S) : Prop :=
  ∀ id, table.lookup id = (whole id).map view

/-- What a worker keeps of a session. -/
def sessionAt (rank : Nat) (tape : Tape S) : Session S :=
  ⟨tape.states rank, tape.position, tape.sequence⟩

/-- What the controller keeps of a session. -/
def counters (tape : Tape S) : Nat × Nat :=
  (tape.position, tape.sequence)

section Represents
variable {β γ : Type} {view : Tape S → β} {other : Tape S → γ} {table : Table β} {table' : Table γ}
  {whole : Whole S}

lemma represents_empty : Represents view (∅ : Table β) (Whole.empty : Whole S) := by
  intro id
  rw [AList.lookup_empty]
  rfl

section
variable (shown : Represents view table whole)
include shown

lemma Represents.insert (id : Nat) (tape : Tape S) : Represents view (table.insert id (view tape))
      (update whole id (some tape)) := by
  intro key
  by_cases same : key = id
  · subst same
    rw [AList.lookup_insert, update_self]
    rfl
  · rw [AList.lookup_insert_ne same, update_of_ne same]
    exact shown key

lemma Represents.erase (id : Nat) : Represents view (table.erase id) (update whole id none) := by
  intro key
  by_cases same : key = id
  · subst same
    rw [AList.lookup_erase, update_self]
    rfl
  · rw [AList.lookup_erase_ne same, update_of_ne same]
    exact shown key

lemma Represents.mem_keys {id : Nat} : id ∈ table.keys ↔ (whole id).isSome := by
  rw [← AList.mem_keys, ← AList.lookup_isSome, shown id, Option.isSome_map]

/-- Tables of the same sessions have the same size. -/
lemma Represents.length_eq (shown' : Represents other table' whole) :
    table.keys.length = table'.keys.length := by
  refine List.Perm.length_eq
    ((perm_ext_iff_of_nodup table.keys_nodup table'.keys_nodup).mpr fun id => ?_)
  rw [shown.mem_keys, shown'.mem_keys]

lemma Represents.lookup {id : Nat} {tape : Tape S} (known : whole id = some tape) :
    table.lookup id = some (view tape) := by
  rw [shown id, known]
  rfl

end

end Represents

/-! ## Orders -/

/-- The layers compute a function. `holds` says of how many positions a state
of a rank holds the keys and values: a new state of none, and on a state that
holds those before the offset an input of the right shape succeeds, with an
output of the right shape, and leaves a state that holds the input's as well. -/
structure Shaped (plan : Plan) (weights : Nat → Weights S) (compute : Compute S)
    (holds : Nat → S → Nat → Prop) : Prop where
  fresh : ∀ rank < plan.stages.length, holds rank (weights rank).newState 0
  forward : ∀ rank < plan.stages.length, ∀ state tokens values offset, holds rank state offset →
    tokens ≠ [] → (∀ token ∈ tokens, token.toNat < plan.vocab) →
    offset + tokens.length ≤ plan.limits.context →
    values.length = inputLength plan rank tokens →
    (weights rank).forward state tokens values offset plan.hidden =
        .ok (compute rank state tokens values offset) ∧
      (compute rank state tokens values offset).2.length = outputLength plan rank tokens ∧
      holds rank (compute rank state tokens values offset).1 (offset + tokens.length)

/-- Every state of a session holds the positions before the session's. -/
def Tape.Held (plan : Plan) (holds : Nat → S → Nat → Prop) (tape : Tape S) : Prop :=
  ∀ rank < plan.stages.length, holds rank (tape.states rank) tape.position

/-- So do the states of all sessions. -/
def Whole.Held (plan : Plan) (holds : Nat → S → Nat → Prop) (whole : Whole S) : Prop :=
  ∀ id tape, whole id = some tape → tape.Held plan holds

/-- What an order does to the sessions of the whole model. -/
def Order.apply (newState : Nat → S) (whole : Whole S) : Order → Whole S
  | .open id => whole.open newState id
  | .close id => whole.close id

/-- What the controller has checked of an order. -/
def Order.Admitted (plan : Plan) (controller : Controller) (whole : Whole S) : Order → Prop
  | .open id => whole id = none ∧ id < controller.nextId ∧
      controller.sessions.keys.length < plan.limits.sessions
  | .close id => (whole id).isSome

variable {compute : Compute S} {whole : Whole S} {plan : Plan} {weights : Nat → Weights S}
  {input : Input} {tape : Tape S} {rank : Nat} {worker : Worker S}
  {holds : Nat → S → Nat → Prop}

lemma Whole.Held.update (held : whole.Held plan holds) {id : Nat} {entry : Option (Tape S)}
    (new : ∀ tape, entry = some tape → tape.Held plan holds) :
    Whole.Held plan holds (update whole id entry) :=
  (Function.forall_update_iff whole fun _ entry => ∀ tape, entry = some tape →
    Tape.Held plan holds tape).mpr ⟨new, fun key _ => held key⟩

/-- An order leaves the sessions with states that hold their positions. -/
lemma Whole.Held.apply (held : whole.Held plan holds) (shaped : Shaped plan weights compute holds)
    (order : Order) :
    (order.apply (fun rank => (weights rank).newState) whole).Held plan holds := by
  cases order with
  | «open» id =>
    refine held.update fun tape opened => ?_
    cases opened
    exact shaped.fresh
  | close id => exact held.update fun tape closed => by cases closed

/-- No worker refuses an admitted order. -/
lemma execute_order {controller : Controller} {order : Order}
    (sessions : Represents counters controller.sessions whole)
    (admitted : order.Admitted plan controller whole)
    (shown : Represents (sessionAt rank) worker whole) :
    ∃ after, execute plan rank (weights rank) worker
        (Packet.control order.command) = .ok (after, []) ∧
      Represents (sessionAt rank) after
        (order.apply (fun rank => (weights rank).newState) whole) := by
  cases order with
  | «open» id =>
    obtain ⟨unknown, _, room⟩ := admitted
    rw [sessions.length_eq shown] at room
    have absent : worker.lookup id = none := by
      rw [shown id, unknown]
      rfl
    refine ⟨_, ?_, shown.insert id ⟨0, 0, fun rank => (weights rank).newState⟩⟩
    simp only [execute, executeInPlace, Packet.control, Order.command]
    rw [if_neg (not_not.mpr ⟨trivial, absent⟩), if_neg (not_not.mpr room)]
    rfl
  | close id =>
    have present : (worker.lookup id).isSome := by
      rw [shown id, Option.isSome_map]
      exact admitted
    refine ⟨_, ?_, shown.erase id⟩
    simp only [execute, executeInPlace, Packet.control, Order.command]
    rw [if_neg (not_not.mpr ⟨trivial, present⟩)]

/-! ## Inputs -/

/-- What the controller has checked of an input. -/
structure Admitted (plan : Plan) (tape : Tape S) (input : Input) : Prop where
  offset : input.offset = tape.position
  nonempty : input.tokens ≠ []
  chunk : input.tokens.length ≤ plan.limits.chunk
  vocab : ∀ token ∈ input.tokens, token.toNat < plan.vocab
  room : tape.position + input.tokens.length < 2 ^ 64
  context : tape.position + input.tokens.length ≤ plan.limits.context
  sequence : tape.sequence + 1 < 2 ^ 64

lemma vocab_iff {tokens : List Token} :
    tokens.all (fun token => token.toNat < plan.vocab) = true ↔
      ∀ token ∈ tokens, token.toNat < plan.vocab := by
  simp only [all_eq_true, decide_eq_true_eq]

lemma feed_eq (known : whole input.session = some tape) :
    whole.feed compute input = update whole input.session (some
      ⟨tape.position + input.tokens.length, tape.sequence + 1,
        advance compute tape.states input.tokens input.offset⟩) := by
  rw [Whole.feed, known]

lemma output_eq (known : whole input.session = some tape) (rank : Nat) :
    whole.output compute rank input =
      through compute tape.states input.tokens input.offset rank := by
  rw [Whole.output, known]

lemma admitInput_eq_ok {sessions after : Table (Nat × Nat)} {i : Nat}
    {job : Job} (shown : Represents counters sessions whole)
    (admitted : Controller.admitInput plan sessions i input = .ok (after, job)) :
    ∃ tape, whole input.session = some tape ∧ Admitted plan tape input ∧
      job = ⟨i, input.session, tape.sequence, input.offset, input.tokens, []⟩ ∧
      Represents counters after (whole.feed compute input) := by
  rw [Controller.admitInput, shown input.session] at admitted
  cases known : whole input.session with
  | none =>
    rw [known] at admitted
    cases admitted
  | some tape =>
    rw [known] at admitted
    simp only [Option.map_some, counters] at admitted
    split_ifs at admitted with offset size vocab room context sequence
    cases admitted
    refine ⟨tape, rfl, ⟨not_not.mp offset, size.1, size.2, vocab_iff.mp vocab, room, context,
      sequence⟩, rfl, ?_⟩
    rw [feed_eq known]
    exact shown.insert input.session ⟨_, _, _⟩

section Input
variable (shaped : Shaped plan weights compute holds) (held : tape.Held plan holds)
  (admitted : Admitted plan tape input)
include shaped held admitted

/-- A stage that is given activations of the right shape. -/
lemma Shaped.computes {values : List Float32Bits} (lt : rank < plan.stages.length)
    (shape : values.length = inputLength plan rank input.tokens) :
    (weights rank).forward (tape.states rank) input.tokens values input.offset plan.hidden =
        .ok (compute rank (tape.states rank) input.tokens values input.offset) ∧
      (compute rank (tape.states rank) input.tokens values input.offset).2.length =
        outputLength plan rank input.tokens ∧
      holds rank (compute rank (tape.states rank) input.tokens values input.offset).1
        (tape.position + input.tokens.length) := by
  have context := admitted.context
  rw [admitted.offset]
  exact shaped.forward rank lt _ _ _ _ (held rank lt) admitted.nonempty admitted.vocab context shape

/-- What comes to a stage has the right shape. -/
lemma through_length (lt : rank < plan.stages.length) :
    (through compute tape.states input.tokens input.offset rank).length =
      inputLength plan rank input.tokens := by
  induction rank with
  | zero => rfl
  | succ rank ih =>
    have before : rank < plan.stages.length := by omega
    rw [through, (shaped.computes held admitted before (ih before)).2.1, outputLength,
      if_neg (by omega), inputLength, if_neg (by omega)]

/-- Behind an input the states hold its positions as well. -/
lemma held_advance : Tape.Held plan holds ⟨tape.position + input.tokens.length, tape.sequence + 1,
    advance compute tape.states input.tokens input.offset⟩ :=
  fun _ lt => (shaped.computes held admitted lt (through_length shaped held admitted lt)).2.2

/-- No worker refuses a job of an admitted input, and it does what the whole
model does. -/
lemma process_eq_ok (lt : rank < plan.stages.length) (known : whole input.session = some tape)
    (shown : Represents (sessionAt rank) worker whole) (i : Nat) :
    ∃ after, process plan weights rank worker
        ⟨i, input.session, tape.sequence, input.offset, input.tokens,
          whole.output compute rank input⟩ = .ok (after,
        ⟨i, input.session, tape.sequence, input.offset, input.tokens,
          whole.output compute (rank + 1) input⟩) ∧
      Represents (sessionAt rank) after (whole.feed compute input) := by
  have shape := through_length shaped held admitted lt
  obtain ⟨computed, length, _⟩ := shaped.computes held admitted lt shape
  have found := shown.lookup known
  rw [output_eq known, output_eq known, feed_eq known]
  have end_eq : input.offset + input.tokens.length =
      tape.position + input.tokens.length := by rw [admitted.offset]
  refine ⟨_, ?_, shown.insert input.session ⟨tape.position + input.tokens.length, tape.sequence + 1,
      advance compute tape.states input.tokens input.offset⟩⟩
  simp only [process, execute, executeInPlace, Packet.withValues]
  rw [if_neg (not_not.mpr ⟨admitted.nonempty, admitted.chunk⟩),
    if_neg (not_not.mpr (vocab_iff.mpr admitted.vocab)),
    if_neg (not_not.mpr (end_eq ▸ admitted.room)), if_neg (not_not.mpr (end_eq ▸ admitted.context))]
  simp only [shape, ne_eq, not_true_eq_false, if_false, found, sessionAt]
  rw [if_neg (not_not.mpr ⟨admitted.offset, trivial⟩), computed]
  simp only
  rw [if_neg (not_not.mpr admitted.sequence)]
  simp only [length, not_true_eq_false, if_false]
  rw [end_eq]
  rfl

end Input

/-! ## Batches -/

/-- The sessions before an input of a batch. -/
def Whole.before (compute : Compute S) (whole : Whole S)
    (inputs : List Input) (number : Nat) : Whole S :=
  whole.feedAll compute (inputs.take number)

/-- What the controller has checked of a batch: every input continues its
session as the inputs before it leave it, and has its job. -/
structure AdmittedAll (plan : Plan) (compute : Compute S) (holds : Nat → S → Nat → Prop)
    (whole : Whole S) (base : Nat) (inputs : List Input) (jobs : List Job) : Prop where
  length : jobs.length = inputs.length
  each : ∀ number < inputs.length, ∃ tape,
    whole.before compute inputs number (inputs.getD number default).session = some tape ∧
    tape.Held plan holds ∧ Admitted plan tape (inputs.getD number default) ∧
    jobs.getD number default = ⟨base + number, (inputs.getD number default).session, tape.sequence,
        (inputs.getD number default).offset, (inputs.getD number default).tokens, []⟩

variable {inputs : List Input}

lemma before_succ {number : Nat} (lt : number < inputs.length) :
    whole.before compute inputs (number + 1) = (whole.before compute inputs number).feed compute
        (inputs.getD number default) := by
  rw [Whole.before, Whole.feedAll, take_add_one, foldl_append,
    List.getElem?_eq_getElem lt, getD_eq_getElem?_getD, List.getElem?_eq_getElem lt]
  rfl

lemma admitAll_eq_ok (shaped : Shaped plan weights compute holds)
    {sessions next : Table (Nat × Nat)} {base : Nat} {jobs : List Job}
    (shown : Represents counters sessions whole) (held : whole.Held plan holds)
    (admitted : Controller.admitAll plan sessions base inputs = .ok (next, jobs)) :
    AdmittedAll plan compute holds whole base inputs jobs ∧
      Represents counters next (whole.feedAll compute inputs) ∧
      (whole.feedAll compute inputs).Held plan holds ∧ whole.Continues compute inputs := by
  induction inputs generalizing sessions base jobs whole with
  | nil =>
    cases admitted
    exact ⟨⟨rfl, nofun⟩, shown, held, trivial⟩
  | cons input rest ih =>
    rw [Controller.admitAll] at admitted
    cases first : Controller.admitInput plan sessions base input with
    | error msg =>
      rw [first] at admitted
      cases admitted
    | ok result =>
      obtain ⟨after, job⟩ := result
      rw [first] at admitted
      simp only at admitted
      cases others : Controller.admitAll plan after (base + 1) rest with
      | error msg =>
        rw [others] at admitted
        cases admitted
      | ok result =>
        obtain ⟨last, more⟩ := result
        rw [others] at admitted
        cases admitted
        obtain ⟨tape, known, valid, job_eq, shown'⟩ := admitInput_eq_ok shown first
        have tapeHeld := held _ tape known
        have held' : (whole.feed compute input).Held plan holds := by
          rw [feed_eq known]
          refine held.update fun after fed => ?_
          cases fed
          exact held_advance shaped tapeHeld valid
        obtain ⟨⟨length, each⟩, final, finalHeld, continues⟩ := ih shown' held' others
        refine ⟨⟨by rw [length_cons, length, length_cons], fun number inside => ?_⟩, final,
          finalHeld, ⟨tape, known, valid.offset⟩, continues⟩
        cases number with
        | zero => exact ⟨tape, known, tapeHeld, valid, job_eq⟩
        | succ number =>
          obtain ⟨tape', known', tapeHeld', valid', job_eq'⟩ :=
            each number (Nat.lt_of_succ_lt_succ inside)
          refine ⟨tape', known', tapeHeld', valid', job_eq'.trans ?_⟩
          rw [add_right_comm, add_assoc]
          rfl

section Batch
variable (plan : Plan) (weights : Nat → Weights S) (compute : Compute S) (whole : Whole S)
  (inputs : List Input) (jobs : List Job) (workers : Nat → Worker S)

/-- A job as it comes to a stage. -/
def jobAt (rank number : Nat) : Job :=
  { jobs.getD number default with
    values := (whole.before compute inputs number).output compute rank
      (inputs.getD number default) }

/-- A worker before a job. -/
def workerAt (rank : Nat) : Nat → Worker S
  | 0 => workers rank
  | number + 1 =>
    match process plan weights rank (workerAt rank number)
        (jobAt compute whole inputs jobs rank number) with
    | .ok (after, _) => after
    | .error _ => workerAt rank number

variable {plan weights compute whole inputs jobs workers}
  (shaped : Shaped plan weights compute holds)
  (admitted : AdmittedAll plan compute holds whole 0 inputs jobs) {number rank : Nat}
include admitted in
lemma jobAt_eq (lt : number < inputs.length) :
    ∃ tape, whole.before compute inputs number (inputs.getD number default).session = some tape ∧
      tape.Held plan holds ∧ Admitted plan tape (inputs.getD number default) ∧
      ∀ rank, jobAt compute whole inputs jobs rank number =
        ⟨number, (inputs.getD number default).session, tape.sequence,
          (inputs.getD number default).offset, (inputs.getD number default).tokens,
          (whole.before compute inputs number).output compute rank
            (inputs.getD number default)⟩ := by
  obtain ⟨tape, known, held, valid, job_eq⟩ := admitted.each number lt
  refine ⟨tape, known, held, valid, fun rank => ?_⟩
  rw [jobAt, job_eq, zero_add]

include shaped admitted in
/-- One job at one stage. -/
lemma process_jobAt (lt : rank < plan.stages.length) (number_lt : number < inputs.length)
    (shown : Represents (sessionAt rank) worker (whole.before compute inputs number)) :
    ∃ after, process plan weights rank worker
        (jobAt compute whole inputs jobs rank number) =
          .ok (after, jobAt compute whole inputs jobs (rank + 1) number) ∧
      Represents (sessionAt rank) after (whole.before compute inputs (number + 1)) := by
  obtain ⟨tape, known, held, valid, job_eq⟩ := jobAt_eq admitted number_lt
  obtain ⟨after, processed, shown'⟩ := process_eq_ok shaped held valid lt known shown number
  rw [← job_eq, ← job_eq] at processed
  refine ⟨after, processed, ?_⟩
  rw [before_succ number_lt]
  exact shown'

include shaped admitted in
/-- Every worker keeps up with the whole model. -/
lemma represents_workerAt (lt : rank < plan.stages.length)
    (shown : Represents (sessionAt rank) (workers rank) whole)
    (number_le : number ≤ inputs.length) : Represents (sessionAt rank)
      (workerAt plan weights compute whole inputs jobs workers rank number)
      (whole.before compute inputs number) := by
  induction number with
  | zero => exact shown
  | succ number ih =>
    obtain ⟨after, processed, shown'⟩ := process_jobAt shaped admitted lt number_le (ih (by omega))
    rw [workerAt, processed]
    exact shown'

include shaped admitted in
/-- Every worker takes every job of an admitted batch. -/
lemma works
    (shown : ∀ rank < plan.stages.length, Represents (sessionAt rank) (workers rank) whole) :
    Conveyor.Works plan.stages.length inputs.length (process plan weights)
      (jobAt compute whole inputs jobs)
      (workerAt plan weights compute whole inputs jobs workers) := by
  intro rank inside number number_lt
  obtain ⟨after, processed, _⟩ := process_jobAt shaped admitted inside
    number_lt (represents_workerAt shaped admitted inside (shown rank inside) (le_of_lt number_lt))
  rw [processed, workerAt, processed]

include admitted in
/-- The jobs that the feeder sends. -/
lemma jobs_eq : jobs = Conveyor.between (jobAt compute whole inputs jobs) 0 0 inputs.length := by
  refine ext_getElem ?_ fun number left right => ?_
  · rw [Conveyor.between, length_map, length_range', admitted.length, Nat.sub_zero]
  · have number_lt : number < inputs.length := by rwa [← admitted.length]
    obtain ⟨tape, known, _, _, job_eq⟩ := admitted.each number number_lt
    have job : jobs[number] = jobs.getD number default := by
      rw [getD_eq_getElem?_getD, List.getElem?_eq_getElem left]
      rfl
    simp only [Conveyor.between, getElem_map, getElem_range', zero_add, one_mul]
    rw [job, jobAt, output_eq known, job_eq]
    rfl

lemma outputs_eq (compute : Compute S) (stages : Nat) (whole : Whole S) (inputs : List Input) :
    whole.outputs compute stages inputs = (List.range inputs.length).map fun number =>
        (whole.before compute inputs number).output compute stages
          (inputs.getD number default) := by
  induction inputs generalizing whole with
  | nil => rfl
  | cons input rest ih =>
    rw [Whole.outputs, ih, length_cons, range_succ_eq_map, map_cons, map_map]
    rfl

/-- The collector puts every output at its place. -/
lemma outputsOf_eq {count : Nat} (job : Nat → Job)
    (indices : ∀ number < count, (job number).index = number) :
    outputsOf count ((List.range count).map job) =
      (List.range count).map fun number => (job number).values := by
  -- behind so many jobs as many outputs are there
  have part (done : Nat) (done_le : done ≤ count) : outputsOf count ((List.range done).map job) =
        (List.range done).map (fun number => (job number).values) ++
          List.replicate (count - done) [] := by
    induction done with
    | zero => rfl
    | succ done ih =>
      have left : count - done = count - (done + 1) + 1 := by omega
      have before := ih (by omega)
      rw [outputsOf] at before ⊢
      rw [range_succ, map_append, foldl_append, before, left, replicate_succ]
      simp only [map_cons, map_nil, foldl_cons, foldl_nil, map_append]
      rw [indices done (by omega), set_append_right _ _ (by simp)]
      simp
  have all := part count le_rfl
  rw [Nat.sub_self] at all
  simpa using all

end Batch

end Joshua.Pipeline
