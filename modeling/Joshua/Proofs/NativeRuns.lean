/-
Module: Joshua.Proofs.NativeRuns
Purpose: Sessions over whole runs of calls, with snapshots that go from one
  session to another: the state is that of a fresh session fed the history,
  and a rewind to the target the session names is exact.
Trusted boundary: none
-/
import Joshua.Proofs.NativeSession

namespace Joshua.Native
open Joshua.Foundation List

variable {W : LayerStack} {laws : Lawful W} {session : Session W} {past : List Token}

/-! ## Snapshots -/

/-- A snapshot holds the state of its tokens. -/
structure Holds (laws : Lawful W) (snapshot : SessionSnapshot W) (history : List Token) : Prop where
  pos : snapshot.pos = history.length
  positive : history ≠ []
  state : snapshot.state = perLayer W (laws.after snapshot.adapters history)
  tokens : W.wantsTokens = true → snapshot.tokens = history

variable {device : W.Device} {keep layer offset : Nat} {key : Option Digest}

lemma forkLayer_cut (small : layer < W.nLayers)
    (cuts : keep = past.length ∨ W.canTruncate = true ∨ laws.AppendOnly layer) :
    Session.forkLayer W keep device (laws.after key past layer) none =
      .ok (laws.after key (past.take keep) layer) := by
  rcases cuts with rfl | own
  · rw [take_length]
    exact laws.fork key past device layer small
  · exact laws.forkCut key past keep device layer small own

variable {point : PrefixCheckpoint W.Checkpoint}

lemma forkLayer_checkpoint (describes : Describes laws key past point)
    (small : layer < W.nLayers) :
    Session.forkLayer W point.pos device (laws.after key past layer)
        (W.checkpointState (laws.after key (past.take point.pos) layer)) =
      .ok (laws.after key (past.take point.pos) layer) := by
  have length : (past.take point.pos).length = point.pos := length_take_of_le describes.inside
  have back := rewind_layers describes small
  cases found : W.checkpointState (laws.after key (past.take point.pos) layer) with
  | none => exact forkLayer_cut small (.inr (.inr (describes.appendOnly small found)))
  | some copy =>
    have forked := laws.fork key (past.take point.pos) device layer small
    rw [found] at back
    rw [length] at forked
    rw [Session.forkLayer, back]
    exact forked

/-- The layers that a snapshot is made of. -/
lemma Follows.snapshotLayers (follows : Follows laws session past)
    {layers : List (Option W.Checkpoint)}
    (chosen : session.snapshotLayers keep past.length = some layers) :
    0 < keep ∧ keep ≤ past.length ∧ (session.state.zip layers).mapM (fun pair =>
          Session.forkLayer W keep device pair.1 pair.2) =
        .ok (perLayer W (laws.after session.adapterKey (past.take keep))) := by
  rw [Session.snapshotLayers] at chosen
  split at chosen
  · cases chosen
  · rename_i possible
    rw [not_or, not_or] at possible
    refine ⟨Nat.pos_of_ne_zero possible.1, not_lt.mp possible.2.1, ?_⟩
    split at chosen
    · rename_i cuts
      cases chosen
      have blank : List.replicate session.state.length none =
          perLayer W fun _ => (none : Option W.Checkpoint) := by
        rw [perLayer, map_const', length_range, follows.length_state]
      rw [blank, follows.states]
      refine mapM_zip_perLayer ?_
      intro layer small
      refine forkLayer_cut small ?_
      rcases cuts with same | own
      · exact .inl same
      · exact .inr (.inl own)
    · obtain ⟨point, found, rfl⟩ := Option.map_eq_some_iff.mp chosen
      have describes := follows.points point (mem_of_find?_eq_some found)
      have pos : point.pos = keep := by simpa using List.find?_some found
      subst pos
      rw [follows.states, describes.layers]
      refine mapM_zip_perLayer ?_
      intro layer small
      exact forkLayer_checkpoint describes small

lemma Follows.snapshot (follows : Follows laws session past)
    {keep : Nat} {device : W.Device} {snapshot : SessionSnapshot W}
    (taken : session.snapshot keep past.length device = .ok (some snapshot)) :
    Holds laws snapshot (past.take keep) := by
  rw [Session.snapshot] at taken
  cases chosen : session.snapshotLayers keep past.length with
  | none =>
    rw [chosen] at taken
    cases taken
  | some layers =>
    obtain ⟨positive, inside, forked⟩ :=
      @Follows.snapshotLayers _ _ _ _ device keep follows layers chosen
    rw [chosen] at taken
    dsimp only at taken
    rw [forked] at taken
    cases taken
    have length : (past.take keep).length = keep := length_take_of_le inside
    exact
      { pos := length.symm
        positive := by
          rw [← length_pos_iff, length]
          exact positive
        state := rfl
        tokens := by
          intro wanted
          dsimp only
          rw [if_pos wanted, follows.tokens wanted] }

lemma Holds.fetchLayers {snapshot : SessionSnapshot W} (holds : Holds laws snapshot past) :
    Session.fetchLayers W snapshot = .ok snapshot.state := by
  rw [Session.fetchLayers]
  split
  · rfl
  · rw [holds.state, holds.pos]
    exact mapM_perLayer fun layer small => laws.fork snapshot.adapters past W.device layer small

variable {next j : Session W}

/-- A session that takes a snapshot stands where the snapshot stood. -/
lemma Follows.restore (follows : Follows laws session past) {snapshot : SessionSnapshot W}
    {stored : List Token} (holds : Holds laws snapshot stored) {taken : Bool}
    (done : session.restore snapshot = .ok (taken, next)) :
    Follows laws next (if taken then stored else past) := by
  rw [Session.restore] at done
  split at done
  · cases done
    exact follows
  · rename_i fits
    rw [not_or, not_not, not_not] at fits
    rw [holds.fetchLayers] at done
    cases done
    have restored : Follows laws
        { session with
          state := snapshot.state
          tokens := snapshot.tokens
          verify := none
          checkpoints := { session.checkpoints with points := [] } }
        stored :=
      { states := holds.state.trans (congrArg
          (fun key => perLayer W (laws.after key stored)) fits.2)
        tokens := holds.tokens
        pending := by
          intro pass never
          cases never
        points := by
          intro point mem
          cases mem
        tidy := PrefixCheckpoints.Tidy.cleared _ }
    rw [holds.pos]
    exact restored.takePrefixCheckpoint holds.positive

/-! ## Runs -/

/-- The sessions that successful calls lead to, with the tokens they have been
fed. An input goes to the end of the history, or before it where the layers
rewrite what follows; a checkpoint and a snapshot are asked for by the length
of the history; a snapshot may come from any session; and a pass that may be
rolled back needs weights that can rewind. -/
inductive Reached (W : LayerStack) (rewrites : Prop) : Session W → List Token → Prop
  | fromWeights : Reached W rewrites (Session.fromWeights W) []
  | newSession {session : Session W} {history : List Token}
      (before : Reached W rewrites session history) :
      Reached W rewrites session.newSession []
  | forward {session next : Session W} {history new : List Token}
      {offset : Nat} {logits : List W.Logits}
      (before : Reached W rewrites session history)
      (inside : offset ≤ history.length)
      (placed : offset = history.length ∨ rewrites)
      (done : session.forward new offset = .ok (logits, next)) :
      Reached W rewrites next (history.take offset ++ new)
  | forwardAllLogits {session next : Session W} {history new : List Token}
      {offset : Nat} {logits : List W.Logits}
      (before : Reached W rewrites session history)
      (rewinds : W.canRewind = true) (inside : offset ≤ history.length)
      (placed : offset = history.length ∨ rewrites)
      (done : session.forwardAllLogits new offset = .ok (logits, next)) :
      Reached W rewrites next (history.take offset ++ new)
  | truncateKvCache {session next : Session W} {history : List Token}
      {keep : Nat} (before : Reached W rewrites session history)
      (done : session.truncateKvCache keep = .ok next) :
      Reached W rewrites next (history.take keep)
  | checkpointPrefix {session : Session W} {history : List Token}
      (before : Reached W rewrites session history) :
      Reached W rewrites (session.checkpointPrefix history.length) history
  | setPrefixCheckpoints {session : Session W} {history : List Token}
      (budget : Nat) (before : Reached W rewrites session history) :
      Reached W rewrites (session.setPrefixCheckpoints budget) history
  | discardVerify {session : Session W} {history : List Token}
      (before : Reached W rewrites session history) :
      Reached W rewrites session.discardVerify history
  | clearKvCache {session : Session W} {history : List Token}
      (before : Reached W rewrites session history) :
      Reached W rewrites session.clearKvCache []
  | setAdapters {session next : Session W} {history : List Token}
      {set : Option W.Adapters} {changed : Bool}
      (before : Reached W rewrites session history)
      (done : session.setAdapters set = .ok (changed, next)) :
      Reached W rewrites next (if changed then [] else history)
  | restore {session source next : Session W} {history stored : List Token}
      {keep : Nat} {device : W.Device} {snapshot : SessionSnapshot W}
      {taken : Bool} (before : Reached W rewrites session history)
      (other : Reached W rewrites source stored)
      (detached : source.snapshot keep stored.length device = .ok (some snapshot))
      (done : session.restore snapshot = .ok (taken, next)) :
      Reached W rewrites next (if taken then stored.take keep else history)

/-- A fresh session with some adapters, fed by ordinary passes. -/
inductive Fed (W : LayerStack) (lora : Option W.Adapters) : Session W → List Token → Prop
  | fresh {changed : Bool} {session : Session W}
      (done : (Session.fromWeights W).setAdapters lora =
        .ok (changed, session)) : Fed W lora session []
  | forward {session next : Session W} {history new : List Token}
      {logits : List W.Logits} (before : Fed W lora session history)
      (done : session.forward new history.length = .ok (logits, next)) :
      Fed W lora next (history ++ new)

lemma follows_of_reached (laws : Lawful W) (reached : Reached W laws.Rewrites session past) :
    Follows laws session past := by
  induction reached with
  | fromWeights => exact follows_fromWeights laws
  | newSession _ follows => exact follows.newSession
  | forward _ inside placed done follows =>
    refine follows.forwardImpl inside placed ?_ done
    intro never
    cases never
  | forwardAllLogits _ rewinds inside placed done follows =>
    exact follows.forwardImpl inside placed (fun _ => rewinds) done
  | truncateKvCache _ done follows => exact follows.truncate done
  | checkpointPrefix _ follows => exact follows.checkpointPrefix
  | setPrefixCheckpoints budget _ follows => exact follows.setPrefixCheckpoints budget
  | discardVerify _ follows => exact follows.discardVerify
  | clearKvCache _ follows => exact follows.clear
  | setAdapters _ done follows => exact follows.setAdapters done
  | restore _ _ detached done follows source =>
    exact follows.restore (source.snapshot detached) done

/-! ## Fresh sessions -/

variable {logits : List W.Logits} {new : List Token}

lemma forwardLayers_lora {all : Bool} {input : LayerInput W.Adapters}
    (done : session.forwardLayers new offset all input = .ok (logits, next)) :
    next.lora = session.lora := by
  rw [Session.forwardLayers] at done
  obtain ⟨⟨rows, states⟩, -, done⟩ := bind_eq_ok.mp done
  obtain ⟨scored, -, done⟩ := bind_eq_ok.mp done
  cases done
  split
  · rfl
  · split
    · rw [Session.takePrefixCheckpoint]
      split
      · rfl
      · dsimp only
        split <;> rfl
    · rfl

/-- A pass runs with the adapters of the session. -/
lemma forward_lora (done : session.forward new offset = .ok (logits, next)) :
    next.lora = session.lora := by
  rw [Session.forward, Session.forwardImpl] at done
  obtain ⟨tokens, -, done⟩ := bind_eq_ok.mp done
  have prepared : (session.prepared tokens offset false).lora = session.lora := rfl
  dsimp only at done
  split at done
  · obtain ⟨kernel, -, done⟩ := bind_eq_ok.mp done
    cases kernel with
    | none => exact (forwardLayers_lora done).trans prepared
    | some result =>
      cases done
      exact prepared
  · exact (forwardLayers_lora done).trans prepared

lemma setAdapters_lora {set : Option W.Adapters} {changed : Bool}
    (done : session.setAdapters set = .ok (changed, next)) : next.lora = set := by
  rw [Session.setAdapters] at done
  split_ifs at done <;> cases done <;> rfl

lemma Fed.lora_eq {lora : Option W.Adapters}
    (fed : Fed W lora session past) : session.lora = lora := by
  induction fed with
  | fresh done => exact setAdapters_lora done
  | forward _ done ih => exact (forward_lora done).trans ih

lemma Fed.follows (laws : Lawful W) {lora : Option W.Adapters}
    (fed : Fed W lora session past) : Follows laws session past := by
  induction fed with
  | fresh done =>
    have follows := (follows_fromWeights laws).setAdapters done
    rw [ite_self] at follows
    exact follows
  | @forward _ _ past _ _ _ done ih =>
    have follows := ih.forwardImpl le_rfl
      (.inl rfl) (fun never => absurd never Bool.false_ne_true)
      done
    rw [take_length] at follows
    exact follows

/-- Two sessions with the same adapters after the same tokens are in the same
state. -/
lemma Follows.agree (follows : Follows laws session past)
    (fed : Fed W session.lora other past) :
    session.state = other.state ∧ (W.wantsTokens = true → session.tokens = other.tokens) := by
  have reference := fed.follows laws
  have key : other.adapterKey = session.adapterKey := congrArg (Option.map W.adapterKey) fed.lora_eq
  refine ⟨?_, ?_⟩
  · rw [follows.states, reference.states, key]
  · intro wanted
    rw [follows.tokens wanted, reference.tokens wanted]

/-- A stored checkpoint is the running state of a fresh session fed that
far. -/
lemma Follows.point_agrees (follows : Follows laws session past)
    (mem : point ∈ session.checkpoints.points)
    (fed : Fed W session.lora other (past.take point.pos)) :
    point.layers = other.state.map W.checkpointState := by
  have reference := fed.follows laws
  have key : other.adapterKey = session.adapterKey := congrArg (Option.map W.adapterKey) fed.lora_eq
  rw [(follows.points point mem).layers, reference.states, key, map_perLayer]

/-! ## Rewinding -/

lemma truncateKvCache_lora (done : session.truncateKvCache keep = .ok next) :
    next.lora = session.lora := by
  rw [Session.truncateKvCache] at done
  obtain ⟨states, -, done⟩ := bind_eq_ok.mp done
  cases done
  rfl

/-- The target of a rewind can be had, where the session names one and no
pass is pending. -/
lemma Follows.rewind (follows : Follows laws session past) (keep : Nat)
    (settled : session.verify = none)
    (named : W.canTruncate = true ∨ 0 < session.rewindTarget keep) :
    session.rewindTarget keep ≤ keep ∧ ∃ next, session.truncateKvCache (session.rewindTarget keep) =
        .ok next := by
  by_cases own : W.canTruncate = true
  · have target : session.rewindTarget keep = keep := if_pos own
    rw [target]
    refine ⟨le_refl keep, ?_⟩
    rw [Session.truncateKvCache, Session.truncateLayers, settled]
    dsimp only
    rw [if_pos own, follows.states, mapM_perLayer fun layer small =>
      laws.truncate _ _ keep layer small (.inl own)]
    exact ⟨_, rfl⟩
  · have positive := named.resolve_left own
    have target : session.rewindTarget keep =
        ((session.checkpoints.best keep).map PrefixCheckpoint.pos).getD 0 :=
      if_neg own
    cases best : session.checkpoints.best keep with
    | none =>
      rw [target, best] at positive
      exact absurd positive (Nat.not_lt_zero 0)
    | some point =>
      obtain ⟨mem, early⟩ := PrefixCheckpoints.best_eq_some best
      rw [target, best]
      refine ⟨early, ?_⟩
      change ∃ next, session.truncateKvCache point.pos = .ok next
      have present : ∃ found, session.checkpoints.points.find?
          (fun other => other.pos = point.pos) = some found := by
        rw [← Option.isSome_iff_exists, List.find?_isSome]
        exact ⟨point, mem, by simp⟩
      obtain ⟨found, chosen⟩ := present
      have describes := follows.points found (mem_of_find?_eq_some chosen)
      have pos : found.pos = point.pos := by simpa using List.find?_some chosen
      rw [Session.truncateKvCache, Session.truncateLayers, settled]
      dsimp only
      rw [if_neg own, chosen]
      dsimp only
      rw [follows.states, describes.layers, ← pos, mapM_zip_perLayer fun layer small => by
          dsimp only
          rw [laws.clear_after _ _ layer small]
          exact rewind_layers describes small]
      exact ⟨_, rfl⟩

/-- Whatever calls have led to a session: its state is that of a fresh session
with the same adapters fed its history, every checkpoint is the running state
of a prefix of the history, the checkpoints are sorted and within the budget,
and a rewind to a target that the session names is exact. -/
theorem session_rolls_back_exactly (laws : Lawful W)
    (reached : Reached W laws.Rewrites session history) :
    (∀ other, Fed W session.lora other history → session.state = other.state ∧
        (W.wantsTokens = true → session.tokens = other.tokens)) ∧
    (∀ point ∈ session.checkpoints.points, point.pos ≤ history.length ∧
      ∀ other, Fed W session.lora other (history.take point.pos) →
        point.layers = other.state.map W.checkpointState) ∧
    session.checkpoints.points.Pairwise (fun left right => left.pos < right.pos) ∧
    session.checkpoints.points.length ≤ session.checkpoints.budget ∧
    ∀ keep, session.verify = none → W.canTruncate = true ∨ 0 < session.rewindTarget keep →
      session.rewindTarget keep ≤ keep ∧
      ∃ next, session.truncateKvCache (session.rewindTarget keep) = .ok next ∧
        ∀ other, Fed W session.lora other (history.take (session.rewindTarget keep)) →
          next.state = other.state ∧ (W.wantsTokens = true → next.tokens = other.tokens) := by
  have follows := follows_of_reached laws reached
  refine ⟨fun other fed => follows.agree fed, ?_, follows.tidy.sorted, follows.tidy.few, ?_⟩
  · intro point member
    exact ⟨(follows.points point member).inside, fun other fed => follows.point_agrees member fed⟩
  · intro keep settled named
    obtain ⟨early, next, done⟩ := follows.rewind keep settled named
    refine ⟨early, next, done, ?_⟩
    intro other fed
    rw [← truncateKvCache_lora done] at fed
    exact (follows.truncate done).agree fed

/-! ## A recurrent layer -/

/-- A running sum, with the sum before a pass and the rows of the pass where
it may be rolled back. -/
structure RunningSum where
  sum : Nat
  capture : Option (Nat × List Nat)

/-- One recurrent layer that adds up its rows. -/
def sumStack : LayerStack where
  State := RunningSum
  Snapshot := Nat × List Nat
  Checkpoint := Nat
  Row := Nat
  Logits := Nat
  Adapters := Empty
  Device := Unit
  nLayers := 1
  fresh := ⟨0, none⟩
  device := ()
  sameDevice := fun _ _ => true
  wantsTokens := false
  canTruncate := false
  canRewind := true
  adapterKey := Empty.elim
  acceptsAdapters := fun _ => true
  embed := fun tokens => tokens.map UInt32.toNat
  layer := fun _ states rows input =>
    .ok (rows, states.map fun state =>
      { sum := state.sum + rows.sum
        capture := if input.verify then some (state.sum, rows) else none })
  head := fun rows => .ok rows
  fusedDecode := fun _ _ _ => .ok none
  truncateState := fun state _ => .ok state
  beginVerify := id
  clearVerify := fun state => { state with capture := none }
  snapshotState := RunningSum.capture
  restoreState := fun _ snapshot retained => .ok ⟨snapshot.1 + (snapshot.2.take retained).sum, none⟩
  checkpointState := fun state => some state.sum
  restoreCheckpoint := fun _ checkpoint => .ok ⟨checkpoint, none⟩
  forkState := fun state _ _ => .ok { state with capture := none }

def tokenSum (tokens : List Token) : Nat :=
  (tokens.map UInt32.toNat).sum

lemma tokenSum_append (left right : List Token) :
    tokenSum (left ++ right) = tokenSum left + tokenSum right := by
  rw [tokenSum, map_append, sum_append]
  rfl

def sumLaws : Lawful sumStack where
  after := fun _ history _ => ⟨tokenSum history, none⟩
  rows := fun _ _ new _ => new.map UInt32.toNat
  armed := fun _ history new _ =>
    ⟨tokenSum (history ++ new), some (tokenSum history, new.map UInt32.toNat)⟩
  AppendOnly := fun _ => False
  Rewrites := False
  after_nil := fun _ _ => rfl
  rows_zero := fun _ _ _ => rfl
  layer := by
    intro key history stale new index input out next small fresh _ ordinary _ _ ran
    obtain rfl : index = 0 := Nat.lt_one_iff.mp small
    obtain rfl : stale = [] := fresh.resolve_right id
    cases ran
    refine ⟨rfl, ?_⟩
    rw [tokenSum_append, append_nil]
    simp only [ordinary]
    rfl
  verifyLayer := by
    intro key history stale new index input out next small fresh _ verifying _ _ ran
    obtain rfl : index = 0 := Nat.lt_one_iff.mp small
    obtain rfl : stale = [] := fresh.resolve_right id
    cases ran
    refine ⟨rfl, ?_⟩
    rw [tokenSum_append, append_nil]
    simp only [verifying]
    rfl
  fused := by
    intro history stale token logits next _ impossible
    cases impossible
  clear_armed := fun _ _ _ _ _ => rfl
  clear_after := fun _ _ _ _ => rfl
  truncate := by
    intro key history keep layer _ own
    exact own.elim (fun impossible => absurd impossible Bool.false_ne_true) False.elim
  rollBack := by
    intro key history new retained layer _ _ _
    rw [tokenSum_append, tokenSum_append, tokenSum, tokenSum, tokenSum, map_take]
    rfl
  checkpoint_none := by
    intro key history layer _ _ impossible
    cases impossible
  checkpoint := by
    intro key history more layer copy _ copied
    cases copied
    rfl
  fork := fun _ _ _ _ _ => rfl
  forkCut := by
    intro key history keep device layer _ own
    exact own.elim (fun impossible => absurd impossible Bool.false_ne_true) False.elim

/-- Three tokens as a prompt. -/
def promptSession : Session sumStack where
  state := [⟨6, none⟩]
  tokens := []
  verify := none
  checkpoints := { budget := 4, points := [⟨3, [some (6 : Nat)]⟩] }
  mtp := false
  lora := none

/-- One more token. -/
def sumSession : Session sumStack :=
  { promptSession with state := [⟨10, none⟩] }

lemma reached_sumSession : Reached sumStack False sumSession [1, 2, 3, 4] := by
  have prompt : (Session.fromWeights sumStack).forward [1, 2, 3] 0 =
      .ok ([(3 : Nat)], promptSession) := rfl
  have token : promptSession.forward [4] 3 = .ok ([(4 : Nat)], sumSession) := rfl
  have prompted : Reached sumStack False promptSession [1, 2, 3] :=
    Reached.forward Reached.fromWeights (le_refl 0) (.inl rfl) prompt
  exact Reached.forward prompted (le_refl 3) (.inl rfl) token

theorem sumSession_rolls_back : ∃ next, sumSession.truncateKvCache 3 = .ok next ∧
      ∀ other, Fed sumStack none other [1, 2, 3] → next.state = other.state ∧
          (sumStack.wantsTokens = true → next.tokens = other.tokens) :=
  ((session_rolls_back_exactly sumLaws reached_sumSession).2.2.2.2 4 rfl
    (.inr (Nat.lt_of_sub_eq_succ rfl))).2

/-- A single token leaves no checkpoint: the target is 0, and a recurrent
session cannot be truncated to it. -/
theorem sumSession_without_target : ∃ session, Reached sumStack False session [5] ∧
      session.verify = none ∧ session.rewindTarget 1 = 0 ∧
      session.truncateKvCache (session.rewindTarget 1) = .error (.noCheckpoint 0) := by
  have token : (Session.fromWeights sumStack).forward [5] 0 = .ok ([(5 : Nat)], { sumSession with
        state := [⟨5, none⟩], checkpoints := ⟨4, []⟩ }) := rfl
  exact ⟨_, Reached.forward Reached.fromWeights (le_refl 0) (.inl rfl) token, rfl, rfl, rfl⟩

end Joshua.Native
