/-
Module: Joshua.Proofs.NativeSession
Purpose: Whatever calls a session has gone through, its layers hold the state
  of its token history: each call keeps what the session says about the
  history, and a rewind gives the state of the shorter one; its prefix
  checkpoints stay sorted and within their budget.
Trusted boundary: `Lawful` states what the trait asks of a loader.
-/
import Joshua.Foundation.Gather
import Joshua.Model.NativeSession

namespace Joshua.Native
open Joshua.Foundation List

namespace PrefixCheckpoints

variable {C : Type} {checkpoints : PrefixCheckpoints C} {points : List (PrefixCheckpoint C)}

/-! ## Thinning -/

lemma thin_sublist (points : List (PrefixCheckpoint C)) : (thin points).Sublist points := by
  rw [thin]
  split
  · exact nil_sublist points
  · split
    · exact eraseIdx_sublist points _
    · exact nil_sublist points

lemma length_thin_lt (filled : points ≠ []) : (thin points).length < points.length := by
  have pos : 0 < points.length := length_pos_iff.mpr filled
  rw [thin]
  split
  · exact pos
  · split
    · rename_i victim found
      have inside := mem_range.mp (minByKey?_mem found)
      rw [length_eraseIdx_of_lt (by omega)]
      omega
    · exact pos

lemma thinTo_sublist (budget fuel : Nat) (points : List (PrefixCheckpoint C)) :
    (thinTo budget fuel points).Sublist points := by
  induction fuel generalizing points with
  | zero => exact List.Sublist.refl points
  | succ fuel ih =>
    rw [thinTo]
    split
    · exact (ih (thin points)).trans (thin_sublist points)
    · exact List.Sublist.refl points

/-- The loop ends within the budget. -/
lemma length_thinTo_le {budget fuel : Nat} (enough : points.length ≤ fuel) :
    (thinTo budget fuel points).length ≤ budget := by
  induction fuel generalizing points with
  | zero => exact le_trans enough (Nat.zero_le budget)
  | succ fuel ih =>
    rw [thinTo]
    split
    · rename_i many
      have filled : points ≠ [] := by
        rintro rfl
        exact Nat.not_lt_zero budget many
      have shorter := length_thin_lt filled
      exact ih (by omega)
    · rename_i few
      exact not_lt.mp few

/-! ## The invariant -/

/-- Strictly sorted by position, and within the budget. -/
structure Tidy (checkpoints : PrefixCheckpoints C) : Prop where
  sorted : checkpoints.points.Pairwise fun left right => left.pos < right.pos
  few : checkpoints.points.length ≤ checkpoints.budget

lemma Tidy.cleared (budget : Nat) : Tidy (⟨budget, []⟩ : PrefixCheckpoints C) where
  sorted := List.Pairwise.nil
  few := Nat.zero_le _

lemma Tidy.invalidateAfter (tidy : Tidy checkpoints) (pos : Nat) :
    Tidy (checkpoints.invalidateAfter pos) where
  sorted := tidy.sorted.filter _
  few := le_trans (length_filter_le _ _) tidy.few

lemma Tidy.thinned (tidy : Tidy checkpoints) (budget : Nat) :
    Tidy (⟨budget, thinTo budget checkpoints.points.length
      checkpoints.points⟩ : PrefixCheckpoints C) where
  sorted := tidy.sorted.sublist (thinTo_sublist _ _ _)
  few := length_thinTo_le le_rfl

variable {point : PrefixCheckpoint C}

/-- Where a checkpoint is put the list stays sorted. -/
private lemma sorted_insert (sorted : points.Pairwise fun left right => left.pos < right.pos)
    (absent : ∀ other ∈ points, other.pos ≠ point.pos) :
    (points.takeWhile (fun other => other.pos < point.pos) ++
      point :: points.dropWhile fun other => other.pos < point.pos).Pairwise
        fun left right => left.pos < right.pos := by
  induction points with
  | nil => exact pairwise_singleton _ point
  | cons first rest ih =>
    rw [pairwise_cons] at sorted
    rw [forall_mem_cons] at absent
    have later := ih sorted.2 absent.2
    by_cases before : first.pos < point.pos
    · rw [takeWhile_cons_of_pos (by simpa using before),
        dropWhile_cons_of_pos (by simpa using before), cons_append, pairwise_cons]
      refine ⟨forall_mem_append.mpr ⟨fun other front => ?_,
        forall_mem_cons.mpr ⟨before, fun other behind => ?_⟩⟩, later⟩
      · exact sorted.1 other ((takeWhile_sublist _).subset front)
      · exact sorted.1 other ((dropWhile_sublist _).subset behind)
    · rw [takeWhile_cons_of_neg (by simpa using before),
        dropWhile_cons_of_neg (by simpa using before), nil_append, pairwise_cons]
      have next : point.pos < first.pos := Nat.lt_of_le_of_ne (not_lt.mp before) absent.1.symm
      refine ⟨forall_mem_cons.mpr ⟨next, fun other behind => ?_⟩, pairwise_cons.mpr sorted⟩
      exact lt_trans next (sorted.1 other behind)

lemma Tidy.insert (tidy : Tidy checkpoints) (point : PrefixCheckpoint C) :
    Tidy (checkpoints.insert point) where
  sorted := by
    have absent : ∀ other ∈ checkpoints.points.filter
        (fun other => other.pos ≠ point.pos), other.pos ≠ point.pos := by
      intro other mem
      simpa using (mem_filter.mp mem).2
    exact (sorted_insert (tidy.sorted.filter _) absent).sublist (thinTo_sublist _ _ _)
  few := length_thinTo_le le_rfl

lemma mem_insert {other : PrefixCheckpoint C} (mem : other ∈ (checkpoints.insert point).points) :
    other = point ∨ other ∈ checkpoints.points := by
  have before := (thinTo_sublist _ _ _).subset mem
  rcases mem_append.mp before with front | back
  · have kept := (takeWhile_sublist _).subset front
    exact .inr (mem_filter.mp kept).1
  · rcases mem_cons.mp back with rfl | behind
    · exact .inl rfl
    · have kept := (dropWhile_sublist _).subset behind
      exact .inr (mem_filter.mp kept).1

lemma best_eq_some {keep : Nat} (found : checkpoints.best keep = some point) :
    point ∈ checkpoints.points ∧ point.pos ≤ keep := by
  refine ⟨mem_reverse.mp (mem_of_find?_eq_some found), ?_⟩
  simpa using find?_some found

end PrefixCheckpoints

/-! ## What is asked of a loader -/

/-- A value for every layer. -/
def perLayer {α : Type} (W : LayerStack) (value : Nat → α) : List α :=
  (List.range W.nLayers).map value

/-- The states in the middle of a pass: the layers below `index` have run. -/
def midPass (W : LayerStack) (done todo : Nat → W.State) (index : Nat) : List W.State :=
  perLayer W fun layer => if layer < index then done layer else todo layer

/-- The laws of a loader: the state of a layer is a function of the tokens
fed and of the adapters (by their key), however the tokens were cut into
passes; `rows` are the rows that enter a layer, `armed` the state after a pass
that may be rolled back. Where the layers rewrite the positions from the
offset of an input on (`Rewrites`), the input may start before the end. -/
structure Lawful (W : LayerStack) where
  after : Option Digest → List Token → Nat → W.State
  rows : Option Digest → List Token → List Token → Nat → List W.Row
  armed : Option Digest → List Token → List Token → Nat → W.State
  /-- The layer rewinds on its own. -/
  AppendOnly : Nat → Prop
  Rewrites : Prop
  after_nil : ∀ key layer, after key [] layer = W.fresh
  rows_zero : ∀ key history new, rows key history new 0 = W.embed new
  layer : ∀ {key history stale new index input out next},
    index < W.nLayers → stale = [] ∨ Rewrites →
    input.offset = history.length → input.verify = false →
    input.lora.map W.adapterKey = key →
    (W.wantsTokens = true → input.tokens = history ++ new) →
    W.layer index
        (midPass W (after key (history ++ new)) (after key (history ++ stale)) index)
        (rows key history new index) input = .ok (out, next) →
      out = rows key history new (index + 1) ∧
        next = midPass W (after key (history ++ new)) (after key (history ++ stale)) (index + 1)
  verifyLayer : ∀ {key history stale new index input out next},
    index < W.nLayers → stale = [] ∨ Rewrites →
    input.offset = history.length → input.verify = true →
    input.lora.map W.adapterKey = key →
    (W.wantsTokens = true → input.tokens = history ++ new) →
    W.layer index
        (midPass W (armed key history new)
          (fun layer => W.beginVerify (after key (history ++ stale) layer))
          index)
        (rows key history new index) input = .ok (out, next) →
      out = rows key history new (index + 1) ∧
        next = midPass W (armed key history new)
          (fun layer => W.beginVerify (after key (history ++ stale) layer))
          (index + 1)
  /-- The fused kernel runs without adapters. -/
  fused : ∀ {history stale token logits next}, stale = [] ∨ Rewrites →
    W.fusedDecode (perLayer W (after none (history ++ stale)))
        (W.embed [token]) history.length = .ok (some (logits, next)) →
      next = perLayer W (after none (history ++ [token]))
  clear_armed : ∀ key history new layer, layer < W.nLayers →
    W.clearVerify (armed key history new layer) = after key (history ++ new) layer
  clear_after : ∀ key history layer, layer < W.nLayers →
    W.clearVerify (after key history layer) = after key history layer
  truncate : ∀ key history keep layer, layer < W.nLayers → W.canTruncate = true ∨ AppendOnly layer →
    W.truncateState (after key history layer) keep = .ok (after key (history.take keep) layer)
  /-- The snapshot of a pass brings the kept part of the pass back. -/
  rollBack : ∀ key history new retained layer, layer < W.nLayers →
    W.canRewind = true → retained ≤ new.length →
    Session.rollBackLayer W (history.length + retained) retained
        (after key (history ++ new) layer)
        (W.snapshotState (armed key history new layer)) =
      .ok (after key (history ++ new.take retained) layer)
  /-- A layer without running state rewinds on its own. -/
  checkpoint_none : ∀ key history layer, layer < W.nLayers → history ≠ [] →
    W.checkpointState (after key history layer) = none → AppendOnly layer
  checkpoint : ∀ {key history more layer copy}, layer < W.nLayers →
    W.checkpointState (after key history layer) = some copy →
    Session.rewindLayer W history.length (after key (history ++ more) layer)
      (some copy) = .ok (after key history layer)
  fork : ∀ key history device layer, layer < W.nLayers →
    W.forkState (after key history layer) history.length device = .ok (after key history layer)
  forkCut : ∀ key history keep device layer, layer < W.nLayers →
    W.canTruncate = true ∨ AppendOnly layer →
    W.forkState (after key history layer) keep device = .ok (after key (history.take keep) layer)

variable {W : LayerStack}

lemma midPass_zero (done todo : Nat → W.State) : midPass W done todo 0 = perLayer W todo := by
  refine map_congr_left ?_
  intro layer _
  exact if_neg (Nat.not_lt_zero layer)

lemma midPass_end (done todo : Nat → W.State) :
    midPass W done todo W.nLayers = perLayer W done := by
  refine map_congr_left ?_
  intro layer mem
  exact if_pos (mem_range.mp mem)

/-- The loop over the layers, from what one layer does. -/
lemma runLayers_spec {input : LayerInput W.Adapters} {rows : Nat → List W.Row}
    {done todo : Nat → W.State}
    (step : ∀ i out next, i < W.nLayers →
      W.layer i (midPass W done todo i) (rows i) input = .ok (out, next) →
      out = rows (i + 1) ∧ next = midPass W done todo (i + 1)) {count start : Nat}
    (whole : start + count = W.nLayers) {out : List W.Row} {next : List W.State}
    (ran : Session.runLayers W input (List.range' start count) (rows start)
      (midPass W done todo start) = .ok (out, next)) : next = perLayer W done := by
  induction count generalizing start with
  | zero =>
    rw [add_zero] at whole
    subst whole
    rw [range'_zero, Session.runLayers] at ran
    cases ran
    exact midPass_end done todo
  | succ count ih =>
    rw [range'_succ, Session.runLayers] at ran
    obtain ⟨⟨between, states⟩, first, rest⟩ := bind_eq_ok.mp ran
    obtain ⟨rfl, rfl⟩ := step start between states (by omega) first
    exact ih (by omega) rest

variable {α β : Type}

lemma map_perLayer (value : Nat → α) (f : α → β) :
    (perLayer W value).map f = perLayer W fun layer => f (value layer) := by
  rw [perLayer, map_map]
  rfl

lemma perLayer_congr {left right : Nat → α}
    (same : ∀ layer, layer < W.nLayers → left layer = right layer) :
    perLayer W left = perLayer W right :=
  map_congr_left fun layer mem => same layer (List.mem_range.mp mem)

lemma length_perLayer (value : Nat → α) : (perLayer W value).length = W.nLayers := by
  rw [perLayer, length_map, length_range]

lemma mapM_perLayer {work : α → Except SessionError β} {value : Nat → α} {result : Nat → β}
    (done : ∀ layer, layer < W.nLayers → work (value layer) = .ok (result layer)) :
    (perLayer W value).mapM work = .ok (perLayer W result) := by
  rw [perLayer, mapM_map]
  exact mapM_eq_ok_map fun layer mem => done layer (mem_range.mp mem)

/-- Work on every layer and something beside it. -/
lemma mapM_zip_perLayer {γ : Type} {work : α × β → Except SessionError γ} {left : Nat → α}
    {right : Nat → β} {result : Nat → γ}
    (done : ∀ layer, layer < W.nLayers → work (left layer, right layer) = .ok (result layer)) :
    ((perLayer W left).zip (perLayer W right)).mapM work = .ok (perLayer W result) := by
  rw [perLayer, perLayer, zip_map']
  exact mapM_perLayer done

/-! ## What a session says about its history -/

/-- A checkpoint is the running state of a prefix of the history. -/
structure Describes (laws : Lawful W) (key : Option Digest)
    (history : List Token) (point : PrefixCheckpoint W.Checkpoint) :
    Prop where
  positive : 0 < point.pos
  inside : point.pos ≤ history.length
  layers : point.layers = perLayer W fun layer =>
    W.checkpointState (laws.after key (history.take point.pos) layer)

/-- A pending pass has fed the end of the history, with what is needed to
take it back. -/
structure Pending (laws : Lawful W) (key : Option Digest)
    (history : List Token) (pass : VerifyCheckpoint W.Snapshot) : Prop where
  rewinds : W.canRewind = true
  split : ∃ before new, history = before ++ new ∧
    pass.offset = before.length ∧ pass.seq = new.length ∧
    pass.layers = perLayer W fun layer => W.snapshotState (laws.armed key before new layer)

/-- The session stands after its history. -/
structure Follows (laws : Lawful W) (session : Session W) (history : List Token) : Prop where
  states : session.state = perLayer W (laws.after session.adapterKey history)
  tokens : W.wantsTokens = true → session.tokens = history
  pending : ∀ pass, session.verify = some pass → Pending laws session.adapterKey history pass
  points : ∀ point ∈ session.checkpoints.points, Describes laws session.adapterKey history point
  tidy : session.checkpoints.Tidy

variable {laws : Lawful W} {session : Session W} {past : List Token} {key : Option Digest}
  {next : Session W}

/-- A checkpoint outlives what happens to the history behind it. -/
lemma Describes.mono {point : PrefixCheckpoint W.Checkpoint}
    (describes : Describes laws key past point) {later : List Token}
    (inside : point.pos ≤ later.length) (same : later.take point.pos = past.take point.pos) :
    Describes laws key later point where
  positive := describes.positive
  inside := inside
  layers := by rw [describes.layers, same]

variable {checkpoints : PrefixCheckpoints W.Checkpoint}

section
variable (points : ∀ point ∈ checkpoints.points, Describes laws key past point)
include points

/-- After a cut those up to the cut still hold. -/
lemma points_take (keep : Nat) : ∀ point ∈ (checkpoints.invalidateAfter keep).points,
      Describes laws key (past.take keep) point := by
  intro point mem
  obtain ⟨before, early⟩ := mem_filter.mp mem
  have describes := points point before
  have small : point.pos ≤ keep := by simpa using early
  refine describes.mono ?_ ?_
  · rw [length_take]
    exact Nat.le_min.mpr ⟨small, describes.inside⟩
  · rw [take_take, min_eq_left small]

/-- After an input at `offset` those up to the offset still hold. -/
lemma points_append (offset : Nat) (new : List Token) :
    ∀ point ∈ (checkpoints.invalidateAfter offset).points,
      Describes laws key (past.take offset ++ new) point := by
  intro point mem
  have describes := points_take points offset point mem
  refine describes.mono ?_ ?_
  · rw [length_append]
    exact le_trans describes.inside (Nat.le_add_right _ _)
  · exact take_append_of_le_length describes.inside

end

/-! ## The calls -/

lemma perLayer_fresh (laws : Lawful W) (key : Option Digest) :
    List.replicate W.nLayers W.fresh = perLayer W (laws.after key []) := by
  rw [perLayer_congr fun layer _ => laws.after_nil key layer, perLayer, map_const', length_range]

lemma follows_empty {budget : Nat}
    (states : session.state = perLayer W (laws.after session.adapterKey []))
    (tokens : session.tokens = []) (pending : session.verify = none)
    (cleared : session.checkpoints = ⟨budget, []⟩) : Follows laws session [] where
  states := states
  tokens := fun _ => tokens
  pending := by
    intro pass here
    rw [pending] at here
    cases here
  points := by
    intro point mem
    rw [cleared] at mem
    cases mem
  tidy := cleared ▸ .cleared budget

lemma follows_fromWeights (laws : Lawful W) : Follows laws (Session.fromWeights W) [] :=
  follows_empty (perLayer_fresh laws _) rfl rfl rfl

section
variable (follows : Follows laws session past)
include follows

lemma Follows.length_state : session.state.length = W.nLayers := by
  rw [follows.states, length_perLayer]

lemma Follows.newSession : Follows laws session.newSession [] := by
  refine follows_empty ?_ rfl rfl rfl
  rw [Session.newSession, follows.length_state]
  exact perLayer_fresh laws _

lemma clearKvCache_state (key : Option Digest) :
    session.clearKvCache.state = perLayer W (laws.after key []) := by
  rw [Session.clearKvCache, map_const', follows.length_state]
  exact perLayer_fresh laws key

lemma Follows.clear : Follows laws session.clearKvCache [] :=
  follows_empty (clearKvCache_state follows _) rfl rfl rfl

/-- State is never continued under another adapter set. -/
lemma Follows.setAdapters {set : Option W.Adapters} {changed : Bool}
    (done : session.setAdapters set = .ok (changed, next)) :
    Follows laws next (if changed then [] else past) := by
  rw [Session.setAdapters] at done
  split_ifs at done with refused changes
  · cases done
    exact follows_empty (clearKvCache_state follows _) rfl rfl rfl
  · cases done
    have key : Session.adapterKey { session with lora := set } =
        session.adapterKey := not_not.mp changes
    exact
      { follows with
        states := by rw [key]; exact follows.states
        pending := by rw [key]; exact follows.pending
        points := by rw [key]; exact follows.points }

lemma Follows.discardVerify : Follows laws session.discardVerify past :=
  { follows with
    states := by
      change session.state.map W.clearVerify = _
      rw [follows.states, map_perLayer]
      exact perLayer_congr fun layer small => laws.clear_after _ _ layer small
    pending := by
      intro pass never
      cases never }

lemma Follows.setPrefixCheckpoints (budget : Nat) :
    Follows laws (session.setPrefixCheckpoints budget) past :=
  { follows with
    points := fun point mem => follows.points point
      ((PrefixCheckpoints.thinTo_sublist _ _ _).subset mem)
    tidy := follows.tidy.thinned budget }

/-- A checkpoint at the end of the history describes it. -/
lemma Follows.takePrefixCheckpoint (filled : past ≠ []) :
    Follows laws (session.takePrefixCheckpoint past.length) past := by
  rw [Session.takePrefixCheckpoint]
  split
  · exact follows
  · dsimp only
    split
    · exact follows
    · refine { follows with points := ?_, tidy := follows.tidy.insert _ }
      intro point mem
      rcases PrefixCheckpoints.mem_insert mem with rfl | before
      · exact
          { positive := length_pos_iff.mpr filled
            inside := le_rfl
            layers := by
              rw [follows.states, map_perLayer]
              dsimp only
              rw [take_length]
              rfl }
      · exact follows.points point before

lemma Follows.checkpointPrefix : Follows laws (session.checkpointPrefix past.length) past := by
  rw [Session.checkpointPrefix]
  split
  · rename_i allowed
    exact follows.takePrefixCheckpoint (length_pos_iff.mp allowed.1)
  · exact follows

end

/-! ## Forward passes -/

lemma recordTokens_spec (follows : Follows laws session past) {offset : Nat}
    {new tokens : List Token} (recorded : session.recordTokens offset new = .ok tokens)
    (wanted : W.wantsTokens = true) : tokens = past.take offset ++ new := by
  rw [Session.recordTokens, if_neg (by simp [wanted])] at recorded
  split at recorded
  · cases recorded
  · cases recorded
    rw [follows.tokens wanted]

/-- The session as a pass finds it, once the input is recorded: the layers
still hold the stale end of the history. -/
structure Ready (laws : Lawful W) (session : Session W)
    (history stale new : List Token) (all : Bool) : Prop where
  rewrites : stale = [] ∨ laws.Rewrites
  states : session.state = perLayer W fun layer =>
    if all then
      W.beginVerify (laws.after session.adapterKey (history ++ stale) layer)
    else laws.after session.adapterKey (history ++ stale) layer
  tokens : W.wantsTokens = true → session.tokens = history ++ new
  verify : session.verify = none
  points : ∀ point ∈ session.checkpoints.points,
    Describes laws session.adapterKey (history ++ new) point
  tidy : session.checkpoints.Tidy

/-- What a layer is given in the pass. -/
structure Given (session : Session W) (history new : List Token)
    (all : Bool) (input : LayerInput W.Adapters) : Prop where
  offset : input.offset = history.length
  verify : input.verify = all
  lora : input.lora.map W.adapterKey = session.adapterKey
  tokens : W.wantsTokens = true → input.tokens = history ++ new

section Pass
variable {stale new : List Token} {all : Bool}

section
variable (ready : Ready laws session past stale new all)
include ready

variable {input : LayerInput W.Adapters}

lemma Ready.runLayers (given : Given session past new all input) {out : List W.Row}
    {next : List W.State}
    (ran : Session.runLayers W input (List.range session.state.length) (W.embed new)
      session.state = .ok (out, next)) :
    next = perLayer W
      (if all then laws.armed session.adapterKey past new
        else laws.after session.adapterKey (past ++ new)) := by
  have layers : session.state.length = W.nLayers := by rw [ready.states, length_perLayer]
  rw [layers, range_eq_range', ← laws.rows_zero session.adapterKey past new] at ran
  cases all with
  | true =>
    rw [ready.states, ← midPass_zero (laws.armed session.adapterKey past new)] at ran
    refine runLayers_spec ?_ (zero_add _) ran
    intro i rows states small step
    exact laws.verifyLayer small ready.rewrites given.offset given.verify
      given.lora given.tokens step
  | false =>
    rw [ready.states, ← midPass_zero (laws.after session.adapterKey (past ++ new))] at ran
    refine runLayers_spec ?_ (zero_add _) ran
    intro i rows states small step
    exact laws.layer small ready.rewrites given.offset given.verify given.lora given.tokens step

/-- After an ordinary pass. -/
lemma Ready.fed (known : session.adapterKey = key) : Follows laws
      { session with
        state := perLayer W (laws.after key (past ++ new)) }
      (past ++ new) :=
  { ready with
    states := by
      rw [← known]
      rfl
    pending := by
      intro pass found
      rw [show Session.verify { session with state := _ } = session.verify
        from rfl, ready.verify] at found
      cases found }

lemma Ready.forwardLayers (rewinds : all = true → W.canRewind = true)
    (given : Given session past new all input) {logits : List W.Logits}
    (done : session.forwardLayers new past.length all input = .ok (logits, next)) :
    Follows laws next (past ++ new) := by
  rw [Session.forwardLayers] at done
  obtain ⟨⟨rows, states⟩, ran, done⟩ := bind_eq_ok.mp done
  have result := ready.runLayers given ran
  obtain ⟨scored, -, done⟩ := bind_eq_ok.mp done
  cases done
  subst result
  cases all with
  | true =>
    rw [if_pos rfl, if_pos rfl]
    exact
      { ready with
        states := by
          dsimp only
          rw [map_perLayer]
          exact perLayer_congr fun layer small => laws.clear_armed _ _ _ layer small
        pending := by
          intro pass found
          cases found
          exact ⟨rewinds rfl, past, new, rfl, rfl, rfl, map_perLayer _ W.snapshotState⟩ }
  | false =>
    rw [if_neg Bool.false_ne_true, if_neg Bool.false_ne_true]
    split
    · rename_i several
      have filled : past ++ new ≠ [] := by
        intro empty
        rw [(append_eq_nil_iff.mp empty).2] at several
        exact Nat.not_lt_zero _ several
      have checkpointed := (ready.fed rfl).takePrefixCheckpoint filled
      rw [length_append] at checkpointed
      exact checkpointed
    · exact ready.fed rfl

end

end Pass

/-- A pass over an input at some offset: what followed is rewritten. -/
lemma Follows.forwardImpl (follows : Follows laws session past) {offset : Nat}
    (lt : offset ≤ past.length) (rewrites : offset = past.length ∨ laws.Rewrites)
    {new : List Token} {all : Bool} (rewinds : all = true → W.canRewind = true)
    {logits : List W.Logits} (done : session.forwardImpl new offset all = .ok (logits, next)) :
    Follows laws next (past.take offset ++ new) := by
  rw [Session.forwardImpl] at done
  obtain ⟨tokens, recorded, done⟩ := bind_eq_ok.mp done
  have whole := recordTokens_spec follows recorded
  have length : (past.take offset).length = offset := length_take_of_le lt
  have split : past.take offset ++ past.drop offset = past :=
    take_append_drop offset past
  have ready : Ready laws (session.prepared tokens offset all)
      (past.take offset) (past.drop offset) new all :=
    { rewrites := by
        refine rewrites.imp_left ?_
        rintro rfl
        exact drop_length
      states := by
        rw [split, Session.prepared, follows.states, map_perLayer]
        cases all <;> rfl
      tokens := whole
      verify := rfl
      points := points_append follows.points offset new
      tidy := follows.tidy.invalidateAfter offset }
  have given : Given (session.prepared tokens offset all)
      (past.take offset) new all
      (session.layerInput tokens (offset + new.length) offset all) :=
    { offset := length.symm
      verify := rfl
      lora := rfl
      tokens := by
        intro wanted
        have total : offset + new.length = (past.take offset ++ new).length := by
          rw [length_append, length]
        rw [Session.layerInput, if_pos wanted, whole wanted, total, take_length] }
  have layered : ∀ {logits next}, (session.prepared tokens offset all).forwardLayers new offset all
        (session.layerInput tokens (offset + new.length) offset all) = .ok (logits, next) →
      Follows laws next (past.take offset ++ new) := by
    intro logits next ran
    apply ready.forwardLayers rewinds given
    rw [length]
    exact ran
  dsimp only at done
  split at done
  · rename_i plain
    obtain ⟨kernel, fused, done⟩ := bind_eq_ok.mp done
    cases kernel with
    | none => exact layered done
    | some result =>
      obtain ⟨row, states⟩ := result
      cases done
      obtain ⟨single, ordinary, -, base⟩ := plain
      obtain ⟨token, rfl⟩ := length_eq_one_iff.mp single
      have notAll : all = false := by simpa using ordinary
      subst notAll
      have key : session.adapterKey = none := by
        rw [Session.adapterKey, Option.isNone_iff_eq_none.mp base]
        rfl
      rw [Session.prepared, if_neg Bool.false_ne_true, follows.states, key] at fused
      have placed : W.fusedDecode (perLayer W (laws.after none
          (past.take offset ++ past.drop offset))) (W.embed [token])
          (past.take offset).length = .ok (some (row, states)) := by
        rw [split, length]
        exact fused
      have after := laws.fused ready.rewrites placed
      subst after
      exact ready.fed key
  · exact layered done

/-! ## Truncation -/

variable {keep : Nat}

/-- The layers of a rollback inside the pending pass. -/
private lemma rollBack_layers {before new : List Token} (rewinds : W.canRewind = true)
    (lt : before.length ≤ keep) (early : keep ≤ before.length + new.length)
    (key : Option Digest) :
    ((perLayer W (laws.after key (before ++ new))).zip (perLayer W fun layer => W.snapshotState
          (laws.armed key before new layer))).mapM (fun pair =>
        Session.rollBackLayer W keep (keep - before.length) pair.1 pair.2) =
      .ok (perLayer W (laws.after key ((before ++ new).take keep))) := by
  refine mapM_zip_perLayer ?_
  intro layer small
  have back := laws.rollBack key before new (keep - before.length) layer small rewinds (by omega)
  rw [Nat.add_sub_cancel' lt] at back
  rw [back, take_append, take_of_length_le lt]

section
variable {point : PrefixCheckpoint W.Checkpoint} (describes : Describes laws key past point)
  {layer : Nat} (small : layer < W.nLayers)
include describes small

/-- A layer that copies nothing of a state is never cut. -/
lemma Describes.appendOnly
    (found : W.checkpointState (laws.after key (past.take point.pos) layer) = none) :
    laws.AppendOnly layer := by
  refine laws.checkpoint_none key _ layer small ?_ found
  rw [← length_pos_iff, length_take_of_le describes.inside]
  exact describes.positive

/-- The layers of a rewind to a checkpoint. -/
lemma rewind_layers :
    Session.rewindLayer W point.pos (laws.after key past layer)
        (W.checkpointState (laws.after key (past.take point.pos) layer)) =
      .ok (laws.after key (past.take point.pos) layer) := by
  have length : (past.take point.pos).length = point.pos := length_take_of_le describes.inside
  cases found : W.checkpointState (laws.after key (past.take point.pos) layer) with
  | none =>
    have own := describes.appendOnly small found
    rw [Session.rewindLayer, laws.truncate key past point.pos layer small (.inr own)]
    rfl
  | some copy =>
    have back : Session.rewindLayer W (past.take point.pos).length
        (laws.after key (past.take point.pos ++ past.drop point.pos) layer)
        (some copy) = _ := laws.checkpoint small found
    rw [length, take_append_drop] at back
    exact back

end

lemma Follows.truncateLayers (follows : Follows laws session past) {states : List W.State}
    (done : session.truncateLayers keep = .ok states) :
    states = perLayer W (laws.after session.adapterKey (past.take keep)) := by
  rw [Session.truncateLayers] at done
  cases found : session.verify with
  | some pass =>
    rw [found] at done
    dsimp only at done
    obtain ⟨rewinds, before, new, rfl, offset, seq, layers⟩ := follows.pending pass found
    rw [VerifyCheckpoint.retained, offset, seq] at done
    by_cases span : before.length ≤ keep ∧ keep ≤ before.length + new.length
    · rw [if_pos span, follows.states, layers] at done
      dsimp only at done
      rw [rollBack_layers rewinds span.1 span.2] at done
      cases done
      rfl
    · rw [if_neg span] at done
      cases done
  | none =>
    rw [found] at done
    dsimp only at done
    split at done
    · rename_i own
      rw [follows.states, mapM_perLayer fun layer small =>
        laws.truncate _ _ keep layer small (.inl own)] at done
      cases done
      rfl
    · split at done
      · cases done
      · rename_i point chosen
        have describes := follows.points point (mem_of_find?_eq_some chosen)
        have pos : point.pos = keep := by simpa using find?_some chosen
        subst pos
        have rewound : ((perLayer W (laws.after session.adapterKey past)).zip
            (perLayer W fun layer => W.checkpointState (laws.after
              session.adapterKey (past.take point.pos) layer))).mapM
            (fun pair => Session.rewindLayer W point.pos (W.clearVerify pair.1) pair.2) =
            .ok (perLayer W (laws.after session.adapterKey (past.take point.pos))) := by
          refine mapM_zip_perLayer ?_
          intro layer small
          dsimp only
          rw [laws.clear_after _ _ layer small]
          exact rewind_layers describes small
        rw [follows.states, describes.layers, rewound] at done
        cases done
        rfl

lemma Follows.truncate (follows : Follows laws session past)
    (done : session.truncateKvCache keep = .ok next) : Follows laws next (past.take keep) := by
  rw [Session.truncateKvCache] at done
  obtain ⟨states, cut, done⟩ := bind_eq_ok.mp done
  cases done
  exact
    { states := follows.truncateLayers cut
      tokens := by
        intro wanted
        dsimp only
        rw [follows.tokens wanted]
      pending := by
        intro pass never
        cases never
      points := points_take follows.points keep
      tidy := follows.tidy.invalidateAfter keep }

end Joshua.Native
