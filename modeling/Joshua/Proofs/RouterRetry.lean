/-
Module: Joshua.Proofs.RouterRetry
Purpose: Routing with retries: however the registry looks and whatever the
  workers answer, a request goes to a worker at most once, only attempts
  without output are followed by another, and a request that is not safe to
  repeat is repeated only after failures that say it was not run; what a
  client is sent of a worker's event stream.
Trusted boundary: none
-/
import Joshua.Model.Router
import Joshua.Proofs.CoordinatorSlots

namespace Joshua.Coordinator
open Joshua.Foundation List

section
variable {n : Nat} {R : Type} {config : CoordinatorConfig} {wanted : Wanted}
  {exclude : List (Fin n)} {index : Fin n}

/-! ## A slot is on a worker that was not tried -/

lemma scanAudio_fresh {workers : Fin n → Worker} {order : List (Fin n)} {scan : AudioScan}
    (picked : scanAudio config exclude workers order scan = .slot index) : index ∉ exclude := by
  induction order generalizing scan with
  | nil => cases picked
  | cons next rest ih =>
    rw [scanAudio] at picked
    split at picked
    next taken =>
      obtain rfl := Pick.slot.inj picked
      exact (lookAudio_takes taken).1
    next => exact ih picked

/-- The best worker of a scan was not tried. -/
lemma foldl_look_fresh [RatioOps R] (args : PickArgs n)
    (workers : Fin n → Worker) (order : List (Fin n)) (scan : Scan n R)
    (fresh : ∀ best, scan.best = some best → best.index ∉ args.exclude) :
    ∀ best, (order.foldl (fun scan index =>
      look config args index (workers index) scan) scan).best = some best →
      best.index ∉ args.exclude := by
  induction order generalizing scan with
  | nil => exact fresh
  | cons next rest ih =>
    refine ih _ ?_
    intro best found
    rcases look_cases config args next (workers next) scan with
      same | ⟨_, _, _, _, j, _, _, untried, _, _, here, there⟩
    · rw [same] at found
      exact fresh best found
    · rw [there, Option.some.injEq] at found
      rw [← found, here]
      exact untried

section
variable [NeZero n] [RatioOps R]

lemma tryPick_fresh {snapshot : Snapshot n}
    (picked : tryPick R config wanted exclude snapshot = .slot index) : index ∉ exclude := by
  rw [tryPick] at picked
  split at picked
  · exact scanAudio_fresh picked
  · dsimp only at picked
    split at picked
    next best found =>
      obtain rfl := Pick.slot.inj picked
      exact foldl_look_fresh _ snapshot.workers snapshot.order {}
        (fun _ never => by cases never) best found
    next => cases picked

lemma pickAfterAudioRefresh_fresh {looks : List (Snapshot n)}
    (picked : pickAfterAudioRefresh R config wanted exclude looks = .slot index) :
    index ∉ exclude := by
  induction looks with
  | nil => cases picked
  | cons snapshot rest ih =>
    rw [pickAfterAudioRefresh] at picked
    split at picked
    next => exact ih picked
    next => exact tryPick_fresh picked

lemma acquire_fresh {waiting : Waiting n}
    (acquired : acquire R config wanted exclude waiting = .ok index) : index ∉ exclude := by
  rw [acquire] at acquired
  split at acquired
  next picked =>
    obtain rfl := Except.ok.inj acquired
    exact pickAfterAudioRefresh_fresh picked
  next => cases acquired
  next =>
    split_ifs at acquired
    split at acquired
    next picked =>
      obtain rfl := Except.ok.inj acquired
      exact pickAfterAudioRefresh_fresh picked
    next => cases acquired
    next => cases acquired

end

/-! ## Failures -/

/-- The request was not sent, or the worker refused to admit it. -/
def SendResult.NotRun : SendResult → Prop
  | .failed sent _ => sent = false
  | .answered status _ _ => status = 503

/-- A failure that is safe to retry says that the request was not run. -/
lemma forward_retry_safe {exchange : Exchange} {reason : String} {admission : Bool}
    (failed : forward exchange = .error (.retry reason admission true)) : exchange.sent.NotRun := by
  rw [forward, firstOutput] at failed
  split at failed
  · cases failed
  split at failed
  · cases failed
  split at failed
  next sent reason' found =>
    rw [found]
    cases sent with
    | false => rfl
    | true => cases failed
  next status contentType body found =>
    rw [found]
    split_ifs at failed with _ refused
    · exact refused
    · cases failed
    · cases failed
    · cases failed
    · dsimp only at failed
      split at failed <;> cases failed
    · dsimp only at failed
      split at failed <;> cases failed
    · split at failed
      · cases failed
      · split at failed <;> cases failed

/-! ## Traces -/

/-- More workers cannot have been tried than there are. -/
lemma length_le_of_nodup {tried : List (Fin n)} (nodup : tried.Nodup) : tried.length ≤ n := by
  have bounded := (subperm_of_subset nodup fun index _ => mem_finRange index).length_le
  rwa [length_finRange] at bounded

/-- No worker is tried twice, and only an attempt without output is followed
by another. -/
structure Once (trace : Trace n) : Prop where
  distinct : (trace.attempts.map Attempt.index).Nodup
  few : trace.attempts.length ≤ n
  silent : ∀ attempt ∈ trace.attempts.dropLast, ∃ reason admission safe,
      attempt.result = .error (.retry reason admission safe)

/-- Only an attempt that was not run is followed by another. -/
def SafeRetries (trace : Trace n) : Prop :=
  ∀ attempt ∈ trace.attempts.dropLast, attempt.exchange.sent.NotRun

/-- What the loops keep: behind the workers that are excluded the attempts are
on new ones, each made as it is recorded, and all but the last were followed
for the given cause. -/
structure Tracked (excluded : List (Fin n)) (safeOnly : Bool) (trace : Trace n) : Prop where
  distinct : (excluded ++ trace.attempts.map Attempt.index).Nodup
  made : ∀ attempt ∈ trace.attempts, attempt.result = forward attempt.exchange
  followed : ∀ attempt ∈ trace.attempts.dropLast, ∃ reason admission safe,
      attempt.result = .error (.retry reason admission safe) ∧
      (safeOnly = true → safe = true)

namespace Tracked

variable {excluded : List (Fin n)} {safeOnly : Bool} {trace : Trace n}

lemma none (distinct : excluded.Nodup) (verdict : Verdict) :
    Tracked excluded safeOnly ⟨[], verdict⟩ where
  distinct := by
    rw [map_nil, append_nil]
    exact distinct
  made := fun _ inside => absurd inside not_mem_nil
  followed := fun _ inside => absurd inside not_mem_nil

variable {attempt : Attempt n}

/-- A last attempt. -/
lemma single (distinct : excluded.Nodup) (fresh : attempt.index ∉ excluded)
    (made : attempt.result = forward attempt.exchange) (verdict : Verdict) :
    Tracked excluded safeOnly ⟨[attempt], verdict⟩ where
  distinct := by
    rw [map_cons, map_nil, ← concat_eq_append]
    exact distinct.concat fresh
  made := forall_mem_singleton.mpr made
  followed := fun _ inside => absurd inside not_mem_nil

/-- An attempt that is followed by others. -/
lemma after {reason : String} {admission safe : Bool}
    (tracked : Tracked (excluded ++ [attempt.index]) safeOnly trace)
    (made : attempt.result = forward attempt.exchange)
    (failed : attempt.result = .error (.retry reason admission safe))
    (allowed : safeOnly = true → safe = true) :
    Tracked excluded safeOnly (trace.after attempt) where
  distinct := by
    have whole := tracked.distinct
    rw [append_assoc, singleton_append] at whole
    exact whole
  made := forall_mem_cons.mpr ⟨made, tracked.made⟩
  followed := by
    intro j inside
    cases rest : trace.attempts with
    | nil =>
      rw [Trace.after, rest] at inside
      exact absurd inside not_mem_nil
    | cons next others =>
      rw [Trace.after, rest, dropLast_cons_cons, ← rest] at inside
      rcases mem_cons.mp inside with same | later
      · rw [same]
        exact ⟨reason, admission, safe, failed, allowed⟩
      · exact tracked.followed j later

lemma once (tracked : Tracked excluded safeOnly trace) : Once trace where
  distinct := tracked.distinct.of_append_right
  few := by
    have bounded := length_le_of_nodup tracked.distinct.of_append_right
    rwa [length_map] at bounded
  silent := by
    intro attempt inside
    obtain ⟨reason, admission, safe, failed, _⟩ := tracked.followed attempt inside
    exact ⟨reason, admission, safe, failed⟩

lemma safeRetries (tracked : Tracked excluded true trace) : SafeRetries trace := by
  intro attempt inside
  obtain ⟨reason, admission, safe, failed, allowed⟩ := tracked.followed attempt inside
  rw [allowed rfl, tracked.made attempt (mem_of_mem_dropLast inside)] at failed
  exact forward_retry_safe failed

end Tracked

section
variable [NeZero n]

section
variable (R : Type) [RatioOps R] (config : CoordinatorConfig) (wanted : Wanted)

/-- The loop of `route` ends, however the world answers. -/
lemma routeLoop_tracked (world : Nat → Round n) (fuel : Nat) {tried : List (Fin n)}
    (lastAdmissionOnly : Bool) (nodup : tried.Nodup) (enough : n < fuel + tried.length) :
    ∃ trace, routeLoop R config wanted world fuel tried lastAdmissionOnly = some trace ∧
      Tracked tried (unrepeatable wanted.path) trace := by
  induction fuel generalizing tried lastAdmissionOnly with
  | zero =>
    have bounded := length_le_of_nodup nodup
    omega
  | succ fuel ih =>
    rw [routeLoop]
    dsimp only
    cases acquired : acquire R config wanted tried (world tried.length).waiting with
    | error reason => exact ⟨_, rfl, .none nodup _⟩
    | ok index =>
      have fresh := acquire_fresh acquired
      dsimp only
      cases result : forward ((world tried.length).exchange index) with
      | ok response => exact ⟨_, rfl, .single nodup fresh result.symm _⟩
      | error failure =>
        cases failure with
        | final response => exact ⟨_, rfl, .single nodup fresh result.symm _⟩
        | retry reason admission safe =>
          dsimp only
          split
          next => exact ⟨_, rfl, .single nodup fresh result.symm _⟩
          next goes =>
            have longer : (tried ++ [index]).length = tried.length + 1 := length_append
            have distinct : (tried ++ [index]).Nodup := concat_eq_append ▸ nodup.concat fresh
            obtain ⟨trace, returned, tracked⟩ := ih
              (lastAdmissionOnly && admission) distinct (by omega)
            rw [returned]
            refine ⟨_, rfl, Tracked.after tracked result.symm rfl ?_⟩
            intro once
            cases safe with
            | true => rfl
            | false => exact absurd (by rw [once]; rfl) goes

/-- The loop of `embedding_batch` ends, however the world answers. -/
lemma batchLoop_tracked (owners : Fin n → Bool) (world : Nat → BatchRound n) (fuel : Nat)
    {reserved : Option (Fin n)} {excluded : List (Fin n)} (attempts : Nat)
    (nodup : excluded.Nodup)
    (kept : ∀ index, reserved = some index → owners index = true → index ∉ excluded)
    (enough : n < fuel + excluded.length) :
    ∃ trace, batchLoop R config wanted owners world fuel reserved excluded attempts = some trace ∧
      Tracked excluded true trace := by
  induction fuel generalizing reserved excluded attempts with
  | zero =>
    have bounded := length_le_of_nodup nodup
    omega
  | succ fuel ih =>
    rw [batchLoop]
    dsimp only
    cases slot : batchSlot R config wanted reserved excluded (world attempts).waiting with
    | error reason => exact ⟨_, rfl, .none nodup _⟩
    | ok index =>
      dsimp only
      split
      next => exact ⟨_, rfl, .none nodup _⟩
      next offered =>
        have owned : owners index = true := by
          cases owner : owners index with
          | true => rfl
          | false => exact absurd (by rw [owner]; rfl) offered
        have fresh : index ∉ excluded := by
          cases reserved with
          | some j => exact kept index (congrArg some (Except.ok.inj slot)) owned
          | none => exact acquire_fresh slot
        cases result : forward ((world attempts).exchange index) with
        | ok response => exact ⟨_, rfl, .single nodup fresh result.symm _⟩
        | error failure =>
          cases failure with
          | final response => exact ⟨_, rfl, .single nodup fresh result.symm _⟩
          | retry reason admission safe =>
            cases safe with
            | false => exact ⟨_, rfl, .single nodup fresh result.symm _⟩
            | true =>
              have longer : (excluded ++ [index]).length = excluded.length + 1 := length_append
              have distinct : (excluded ++ [index]).Nodup := concat_eq_append ▸ nodup.concat fresh
              have open' : ∀ j : Fin n, none = some j → owners j = true → j ∉ excluded ++ [index] :=
                fun _ never => by cases never
              obtain ⟨trace, returned, tracked⟩ := ih (attempts + 1) distinct open' (by omega)
              dsimp only
              rw [returned]
              exact ⟨_, rfl, tracked.after result.symm rfl fun _ => rfl⟩

end
end

/-- Routing with retries: a request, or a batch of an embedding request, ends
after at most as many attempts as there are workers, each on another one; only
an attempt without output is followed by another; and a request that is not
safe to repeat is repeated only when it was not sent or not admitted. -/
theorem requests_tried_once_per_worker (R : Type) [NeZero n] [RatioOps R]
    (config : CoordinatorConfig) :
    (∀ (wanted : Wanted) (world : Nat → Round n), ∃ trace,
      route R config wanted world (n + 1) = some trace ∧ Once trace ∧
        (unrepeatable wanted.path = true → SafeRetries trace)) ∧
    ∀ (model : String) (units : Nat) (owners : Fin n → Bool)
      (reserved : Option (Fin n)) (world : Nat → BatchRound n), ∃ trace,
      embeddingBatch R config model units owners reserved world (n + 1) =
        some trace ∧ Once trace ∧ SafeRetries trace := by
  refine ⟨?_, ?_⟩
  · intro wanted world
    obtain ⟨trace, returned, tracked⟩ := routeLoop_tracked R config
      wanted world (n + 1) true nodup_nil (Nat.lt_succ_self n)
    refine ⟨trace, returned, tracked.once, ?_⟩
    intro kind
    rw [kind] at tracked
    exact tracked.safeRetries
  · intro model units owners reserved world
    have distinct : ((List.finRange n).filter fun index => !owners index).Nodup :=
      (nodup_finRange n).filter _
    have kept : ∀ index, reserved = some index → owners index = true →
        index ∉ (List.finRange n).filter fun index => !owners index := by
      intro index _ owned inside
      have unowned := (mem_filter.mp inside).2
      rw [owned] at unowned
      cases unowned
    obtain ⟨trace, returned, tracked⟩ := batchLoop_tracked R config _
      owners world (n + 1) 0 distinct kept (by omega)
    exact ⟨trace, returned, tracked.once, tracked.safeRetries⟩

/-! ### A transcription that is refused -/

/-- Whole numbers in place of floating-point ones. -/
instance : RatioOps Nat where
  quotient := fun work slots => work / slots
  sub := fun left right => left - right
  partialCmp := fun left right => some (compare left right)

/-- A healthy worker that transcribes. -/
def transcriber : Worker where
  status := {
    healthy := true
    info := some {
      protocolVersion := 1
      model := "m"
      models := []
      nCtx := 0
      maxConcurrency := 1
      inFlight := 0
      transcriptionInFlight := 0
      capabilities := {
        chat := false
        completions := false
        embeddings := false
        transcriptions := true } } }

def transcription : Wanted where
  path := .transcriptions
  model := none
  work := { context := none, units := 0 }

/-- Two transcribers; the first one is full, the second one answers. -/
def refusing (_ : Nat) : Round 2 where
  waiting := {
    atOnce := [{
      start := 0
      workers := fun _ => transcriber
      preferred := none
      allReported := true }]
    queueFull := false
    queued := [] }
  exchange := fun index => {
    secure := true
    owner := false
    responseLimit := 2 ^ 21
    maxResponseBytes := 2 ^ 23
    sent := .answered (if index.val = 0 then 503 else 200) none {
      frames := []
      ending := .closed }
    timedOut := false }

def uncapped : CoordinatorConfig := { workerSlots := none, queueDepth := 0 }

theorem refused_tried_once : ∃ trace, route Nat uncapped transcription refusing 3 = some trace ∧
      Once trace ∧ SafeRetries trace := by
  obtain ⟨trace, returned, once, safe⟩ :=
    (requests_tried_once_per_worker Nat uncapped).1 transcription refusing
  exact ⟨trace, returned, once, safe rfl⟩

/-- The transcription reaches the first worker, which answers it, and goes to
the second one all the same. -/
theorem answered_transcription_retried : ∃ trace first second,
      route Nat uncapped transcription refusing 3 = some trace ∧
      trace.attempts = [first, second] ∧
      first.exchange.sent = .answered 503 none { frames := [], ending := .closed } :=
  ⟨_, _, _, rfl, rfl, rfl⟩

end

/-! ## Framing -/

variable {data events first : Bytes} {framer next : SseFramer}

lemma push_none (pushed : framer.push data = (none, next)) :
    next.buf = framer.buf ++ data ∧ ¬ blankLine <:+: next.buf := by
  obtain ⟨one, rfl⟩ := Prod.mk.inj pushed
  exact cutLast_none (Prod.ext one rfl)

lemma push_some (pushed : framer.push data = (some events, next)) :
    events ++ next.buf = framer.buf ++ data ∧ blankLine <:+ events ∧ ¬ blankLine <:+: next.buf := by
  obtain ⟨one, rfl⟩ := Prod.mk.inj pushed
  exact cutLast_some (by decide) (Prod.ext one rfl)

variable {forwarded : List Bytes} {state : StreamState} {frames : List Frame} {rest : List Frame}

variable {found : Option Bytes}

/-- Frames complete an event, or all end before that. -/
lemma awaitEvents_spec (clean : ¬ blankLine <:+: framer.buf)
    (awaited : awaitEvents framer frames = (found, next, rest)) :
    ∃ consumed, frames = consumed ++ rest ∧
      found.getD [] ++ next.buf = framer.buf ++ received consumed ∧
      ¬ blankLine <:+: next.buf ∧ (found = none → rest = []) ∧ (consumed = [] → found = none) ∧
      ∀ events ∈ found, blankLine <:+ events := by
  induction frames generalizing framer with
  | nil =>
    cases awaited
    exact ⟨[], rfl, (append_nil _).symm, clean, fun _ => rfl, fun _ => rfl, by simp⟩
  | cons frame frames ih =>
    cases frame with
    | trailers =>
      obtain ⟨consumed, split, whole, still, last, _, ends⟩ := ih clean awaited
      exact ⟨.trailers :: consumed, congrArg _ split, whole, still, last, by simp, ends⟩
    | data bytes =>
      rw [awaitEvents] at awaited
      split at awaited
      next events between pushed =>
        cases awaited
        obtain ⟨whole, ends, still⟩ := push_some pushed
        refine ⟨[.data bytes], rfl, ?_, still, by simp, by simp, by simpa using ends⟩
        exact whole.trans (congrArg _ (append_nil bytes).symm)
      next between pushed =>
        obtain ⟨kept, still⟩ := push_none pushed
        obtain ⟨consumed, split, whole, clean, last, _, ends⟩ := ih still awaited
        refine ⟨.data bytes :: consumed, congrArg _ split, ?_, clean, last, by simp, ends⟩
        rw [whole, kept, append_assoc]
        rfl

/-! ## The terminal event -/

/-- Behind a blank line the lines start anew, so that an event is found in one
part or in the other. -/
lemma hasDoneEvent_append (second : Bytes) (ends : blankLine <:+ first) :
    hasDoneEvent (first ++ second) = (hasDoneEvent first || hasDoneEvent second) := by
  obtain ⟨lines, rfl⟩ := ends
  have empty : isDoneLine [] = false := by decide
  have cut : lines ++ blankLine = (lines ++ [newline]) ++ newline :: [] := by
    rw [append_assoc]
    rfl
  have whole : lines ++ blankLine ++ second = (lines ++ [newline]) ++ newline :: second := by
    rw [cut, append_assoc]
    rfl
  have alone : hasDoneEvent (lines ++ [newline] ++ newline :: []) =
      hasDoneEvent (lines ++ [newline]) := by
    rw [hasDoneEvent, splitOn_append_cons_self, any_append,
      splitOn_nil, any_cons, any_nil, empty, Bool.or_false, Bool.or_false]
    rfl
  rw [whole, cut, alone, hasDoneEvent, splitOn_append_cons_self, any_append]
  rfl

/-! ## What has been relayed -/

/-- The frames that a stream has not read. -/
def StreamState.left (state : StreamState) : List Frame :=
  state.body.elim [] Incoming.frames

/-- The state of a stream that has relayed these pieces. -/
structure Relayed (frames : List Frame) (forwarded : List (List UInt8))
    (state : StreamState) : Prop where
  begun : state.first = none
  bytes : ∃ consumed, frames = consumed ++ state.left ∧
    forwarded.flatten ++ state.framer.buf = received consumed
  pieces : ∀ piece ∈ forwarded, blankLine <:+ piece
  held : ¬ blankLine <:+: state.framer.buf
  done : state.done = hasDoneEvent forwarded.flatten

lemma received_append (first second : List Frame) :
    received (first ++ second) = received first ++ received second :=
  flatMap_append

/-- A blank line ends what has been forwarded. -/
lemma hasDoneEvent_concat (pieces : ∀ piece ∈ forwarded, blankLine <:+ piece)
    (events : Bytes) :
    hasDoneEvent (forwarded ++ [events]).flatten =
      (hasDoneEvent forwarded.flatten || hasDoneEvent events) := by
  rw [flatten_append, flatten_singleton]
  rcases eq_nil_or_concat forwarded with rfl | ⟨init, last, rfl⟩
  · rfl
  · rw [concat_eq_append, flatten_append, flatten_singleton]
    refine hasDoneEvent_append events ?_
    have ends := pieces last (by
      rw [concat_eq_append]
      exact mem_append_right _ (mem_singleton.mpr rfl))
    exact ends.trans (suffix_append _ _)

/-- What a poll of a stream whose first piece is out can do. -/
lemma nextChunk_cases {body : Incoming} (relayed : Relayed frames forwarded state)
    (opened : state.body = some body) :
    (∃ events next, state.nextChunk = (some events, next) ∧
      Relayed frames (forwarded ++ [events]) next ∧ next.body ≠ none ∧
      next.left.length < state.left.length) ∨
    ∃ next, Relayed frames forwarded next ∧ next.body = none ∧ state.nextChunk =
        (if next.done then none else some midStreamError, next) := by
  obtain ⟨consumed, split, bytes⟩ := relayed.bytes
  have left : state.left = body.frames := by
    rw [StreamState.left, opened]
    rfl
  rw [StreamState.nextChunk, relayed.begun, opened]
  dsimp only
  generalize awaited : awaitEvents state.framer body.frames = outcome
  obtain ⟨found, framer, rest⟩ := outcome
  obtain ⟨taken, divided, whole, clean, last, filled, ends⟩ := awaitEvents_spec relayed.held awaited
  have all : ∃ consumed, frames = consumed ++ rest ∧
      forwarded.flatten ++ (found.getD [] ++ framer.buf) = received consumed := by
    refine ⟨consumed ++ taken, ?_, ?_⟩
    · rw [split, left, divided, append_assoc]
    · rw [whole, ← append_assoc, bytes, received_append]
  cases found with
  | some events =>
    refine .inl ⟨events, _, rfl, ⟨rfl, ?_, ?_, clean, ?_⟩, Option.some_ne_none _, ?_⟩
    · rw [flatten_append, flatten_singleton, append_assoc]
      exact all
    · exact forall_mem_append.mpr ⟨relayed.pieces, forall_mem_singleton.mpr (ends events rfl)⟩
    · rw [hasDoneEvent_concat relayed.pieces, ← relayed.done]
    · have pos := length_pos_of_ne_nil (mt filled (Option.some_ne_none _))
      rw [left, divided, length_append]
      exact Nat.lt_add_of_pos_left pos
  | none =>
    rw [last rfl] at all
    refine .inr ⟨{ state with
      body := none, framer := framer, first := none,
      outcome := if state.done then .complete else .workerLost }, ?_, rfl, ?_⟩
    · exact ⟨rfl, all, relayed.pieces, clean, relayed.done⟩
    · cases state.done with
      | true | false => rfl

/-- How the polls of a stream come out: it is still open, or it has ended
behind what was forwarded, with an error unless it was complete. -/
def Outcome (chunks forwarded : List (List UInt8)) (state : StreamState) : Prop :=
  (state.body ≠ none ∧ chunks = forwarded) ∨ (state.body = none ∧
      chunks = forwarded ++ if state.done then [] else [midStreamError])

lemma Outcome.cons {chunks : List Bytes} (outcome : Outcome chunks forwarded state)
    (piece : Bytes) : Outcome (piece :: chunks) (piece :: forwarded) state :=
  outcome.imp (And.imp_right (congrArg _)) (And.imp_right (congrArg _))

/-- A stream that has ended gives nothing more. -/
lemma run_ended (begun : state.first = none) (ended : state.body = none) (polls : Nat) :
    state.run polls = ([], state) := by
  cases polls with
  | zero => rfl
  | succ polls => rw [StreamState.run, StreamState.nextChunk, begun, ended]

/-- Along the polls everything stays relayed; when there were more of them
than frames, the stream has ended. -/
lemma run_relayed (polls : Nat) (relayed : Relayed frames forwarded state)
    (opened : state.body ≠ none) :
    ∃ more, Relayed frames (forwarded ++ more) (state.run polls).2 ∧
      Outcome (state.run polls).1 more (state.run polls).2 ∧
      (state.left.length < polls → (state.run polls).2.body = none) := by
  induction polls generalizing forwarded state with
  | zero =>
    refine ⟨[], ?_, .inl ⟨opened, rfl⟩, fun few => absurd few ?_⟩
    · rw [append_nil]
      exact relayed
    · exact Nat.not_lt_zero _
  | succ polls ih =>
    obtain ⟨body, streams⟩ := Option.ne_none_iff_exists'.mp opened
    rcases nextChunk_cases relayed streams with
      ⟨events, next, polled, still, stays, fewer⟩ |
      ⟨next, still, ended, polled⟩
    · obtain ⟨more, later, outcome, finished⟩ := ih still stays
      rw [StreamState.run, polled]
      rw [append_assoc, singleton_append] at later
      exact ⟨events :: more, later, outcome.cons events, fun few => finished (by omega)⟩
    · rw [StreamState.run, polled]
      refine ⟨[], ?_⟩
      rw [append_nil]
      cases complete : next.done with
      | true => exact ⟨still, .inr ⟨ended, by simp [complete]⟩, fun _ => ended⟩
      | false =>
        simp only [Bool.false_eq_true, if_false, run_ended still.begun ended]
        exact ⟨still, .inr ⟨ended, by simp [complete]⟩, fun _ => ended⟩

/-! ## Whole streams -/

private lemma nothing : ¬ blankLine <:+: ([] : List UInt8) := by
  intro inside
  have short := inside.length_le
  exact absurd short (by decide)

lemma awaitEvents_start (ending : Ending)
    (awaited : awaitEvents {} frames = (some first, framer, rest)) :
    rest.length < frames.length ∧ Relayed frames [first] {
        body := some { frames := rest, ending := ending }
        framer := framer
        first := none
        done := hasDoneEvent first
        events := 1
        outcome := .clientDisconnected } := by
  obtain ⟨consumed, split, whole, clean, _, filled, ends⟩ := awaitEvents_spec nothing awaited
  refine ⟨?_, rfl, ⟨consumed, split, ?_⟩, ?_, clean, ?_⟩
  · have pos := length_pos_of_ne_nil (mt filled (Option.some_ne_none _))
    rw [split, length_append]
    omega
  · rw [flatten_singleton]
    exact whole
  · exact forall_mem_singleton.mpr (ends first rfl)
  · rw [flatten_singleton]

/-- A stream that a worker answers with.  Before its first whole event nothing
is forwarded, all bytes are held and the attempt may be made elsewhere.  From
then on, at every poll, what was forwarded and what the framer holds are the
bytes that were read; every piece ends with a blank line, the rest has none;
the flag says whether the terminal event went out.  When the worker's frames
are used up the stream ends, behind the forwarded pieces if that event was
among them, and with one error event if it was not. -/
theorem stream_relays_whole_events {exchange : Exchange} {status : Nat} {contentType : Option Text}
    {body : Incoming} (secure : exchange.secure = true)
    (sent : exchange.sent = .answered status contentType body)
    (success : 200 ≤ status ∧ status < 300) (plain : exchange.owner = false)
    (events : isEventStream contentType = true) :
    (∃ reason, firstOutput exchange = .error (.retry reason false false) ∧
      (awaitEvents {} body.frames).2.1.buf = received body.frames ∧
      ¬ blankLine <:+: received body.frames) ∨
    ∃ start, firstOutput exchange = .ok (.stream start) ∧ ∀ polls, ∃ forwarded consumed,
        body.frames = consumed ++ (start.run (polls + 1)).2.left ∧
        forwarded.flatten ++ (start.run (polls + 1)).2.framer.buf = received consumed ∧
        (∀ piece ∈ forwarded, blankLine <:+ piece) ∧
        ¬ blankLine <:+: (start.run (polls + 1)).2.framer.buf ∧
        (start.run (polls + 1)).2.done = hasDoneEvent forwarded.flatten ∧
        Outcome (start.run (polls + 1)).1 forwarded (start.run (polls + 1)).2 ∧
        (body.frames.length ≤ polls → (start.run (polls + 1)).2.body = none) := by
  have accepted : ¬ (status < 200 ∨ 300 ≤ status) := by omega
  simp only [firstOutput, secure, sent, plain, events, if_neg accepted,
    Bool.not_true, Bool.false_and, Bool.false_eq_true, if_false]
  generalize awaited : awaitEvents {} body.frames = outcome
  obtain ⟨found, framer, rest⟩ := outcome
  cases found with
  | none =>
    left
    obtain ⟨consumed, split, whole, clean, last, _⟩ := awaitEvents_spec nothing awaited
    rw [last rfl, append_nil] at split
    have same : framer.buf = received body.frames := split ▸ whole
    rw [same] at clean
    cases body.ending with
    | closed | lost error => exact ⟨_, rfl, same, clean⟩
  | some first =>
    right
    refine ⟨_, rfl, ?_⟩
    intro polls
    obtain ⟨fewer, relayed⟩ := awaitEvents_start body.ending awaited
    obtain ⟨more, later, outcome, finished⟩ := run_relayed polls relayed (Option.some_ne_none _)
    obtain ⟨consumed, split, bytes⟩ := later.bytes
    exact ⟨[first] ++ more, consumed, split, bytes, later.pieces, later.held, later.done,
      outcome.cons first, fun few => finished (lt_of_lt_of_le fewer few)⟩

/-- A stream whose frames cut its two events and the blank line between
them. -/
def cutExchange : Exchange where
  secure := true
  owner := false
  responseLimit := 2 ^ 21
  maxResponseBytes := 2 ^ 23
  sent := .answered 200 (some "text/event-stream".toList) {
    frames := [.data (ascii "data: x\n"), .data (ascii "\ndata: [DO"), .data (ascii "NE]\n\n")]
    ending := .closed }
  timedOut := false

theorem cutExchange_relayed : ∃ start, firstOutput cutExchange = .ok (.stream start) ∧
      (start.run 4).2.body = none ∧
      ∃ forwarded, Outcome (start.run 4).1 forwarded (start.run 4).2 ∧
        forwarded.flatten ++ (start.run 4).2.framer.buf = ascii "data: x\n\ndata: [DONE]\n\n" := by
  have secure : cutExchange.secure = true := rfl
  rcases stream_relays_whole_events secure rfl (by decide) rfl (by decide) with
    ⟨_, _, _, clean⟩ | ⟨start, output, every⟩
  · refine absurd ?_ clean
    exact ⟨ascii "data: x", ascii "data: [DONE]\n\n", by decide⟩
  · obtain ⟨forwarded, consumed, split, bytes, _, _, _, outcome, finished⟩ := every 3
    have ended := finished (by decide)
    refine ⟨start, output, ended, forwarded, outcome, ?_⟩
    rw [StreamState.left, ended, Option.elim_none, append_nil] at split
    rw [bytes, ← split]
    decide

end Joshua.Coordinator
