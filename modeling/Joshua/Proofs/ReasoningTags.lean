/-
Module: Joshua.Proofs.ReasoningTags
Purpose: What a block of reasoning emits, whatever pieces it arrives in, and
  the tag formats of the reasoning splitter: however the output is cut into
  pieces, the reasoning and the answer are those of one look at the whole
  text.
Trusted boundary: none
-/
import Joshua.Model.Reasoning

namespace Joshua
open Joshua.Foundation

namespace Splitter

/-- The text an emission adds to the output. -/
def emittedText (pendingWs : Text) (started : Bool) (text : Text) : Text :=
  let body := trimEnd (if started then text else trimStart text)
  if body.isEmpty then [] else pendingWs ++ body

/-- The whitespace pending after an emission. -/
def pendingAfter (pendingWs : Text) (started : Bool) (text : Text) (closing : Bool) : Text :=
  let shown := if started then text else trimStart text
  if closing then
    []
  else
    (if (trimEnd shown).isEmpty then pendingWs else []) ++ trailingSpace shown

/-- Whether reasoning has started after an emission. -/
def startedAfter (started : Bool) (text : Text) : Bool :=
  started || !(trimEnd (if started then text else trimStart text)).isEmpty

/-- An emission depends on what is pending and whether reasoning has started,
and changes nothing else. -/
lemma emitReasoning_eq (splitter : Splitter) (out : Split) (text : Text) (closing : Bool) :
    emitReasoning splitter out text closing = ({ splitter with
          pendingWs := pendingAfter splitter.pendingWs splitter.reasoningStarted text closing
          reasoningStarted := startedAfter splitter.reasoningStarted text },
        out.addReasoning (emittedText splitter.pendingWs splitter.reasoningStarted text)) := by
  obtain ⟨format, state, buf, ws, begun⟩ := splitter
  unfold emitReasoning pendingAfter startedAfter emittedText
  dsimp only
  generalize shownEq : (if begun then text else trimStart text) = shown
  cases blank : (trimEnd shown).isEmpty <;> cases closing <;> simp [Split.addReasoning]

/-- The part of a block's text that can show: all of it once reasoning has
started, otherwise what follows the leading whitespace. -/
def visible (started : Bool) (text : Text) : Text :=
  if started then text else trimStart text

/-- Where a splitter stands after `text` of a block that began with `opened`:
the trailing whitespace is pending, and reasoning has started once anything
has shown. -/
structure Emitted (opened : Bool) (text pendingWs : Text) (started : Bool) : Prop where
  pending : pendingWs = trailingSpace (visible opened text)
  hasStarted : started = (opened || !(visible opened text).isEmpty)

lemma Emitted.nil (opened : Bool) : Emitted opened [] [] opened where
  pending := by cases opened <;> rfl
  hasStarted := by cases opened <;> rfl

lemma visible_append (begun : Bool) (text more : Text) : visible begun (text ++ more) =
      if begun || !(visible begun text).isEmpty then
        visible begun text ++ more
      else
        trimStart more := by
  cases begun with
  | true => simp [visible]
  | false =>
    simp only [visible, Bool.false_eq_true, if_false, Bool.false_or, trimStart_append]
    split <;> simp_all

section
variable {opened : Bool} {text : Text} (splitter : Splitter)
  (emitted : Emitted opened text splitter.pendingWs splitter.reasoningStarted) (out : Split)
include splitter emitted out

/-- One emission: the splitter stands after the longer text, and the output
grows by what is now known not to be trailing. -/
lemma emitReasoning_spec (more : Text) (closing : Bool) :
    ∃ delta, emitReasoning splitter out more closing = ({ splitter with
            pendingWs :=
              if closing then []
              else trailingSpace (visible opened (text ++ more))
            reasoningStarted := opened || !(visible opened (text ++ more)).isEmpty },
          out.addReasoning delta) ∧
      trimEnd (visible opened text) ++ delta = trimEnd (visible opened (text ++ more)) := by
  obtain ⟨format, state, buf, ws, reasoningStarted⟩ := splitter
  obtain ⟨pending, hasStarted⟩ := emitted
  simp only at pending hasStarted
  rw [visible_append, ← hasStarted]
  cases reasoningStarted with
  | true =>
    -- inside the block: the pending whitespace shows if anything follows
    have stays : (opened || !(visible opened text ++ more).isEmpty) = true := by
      rcases Bool.or_eq_true_iff.mp hasStarted.symm with wasOpen | shown
      · simp [wasOpen]
      · simp_all
    simp only [if_true, stays]
    by_cases blank : trimEnd more = []
    · refine ⟨[], ?_, ?_⟩
      · cases closing <;>
          simp [emitReasoning, blank, pending, trailingSpace_append,
            trailingSpace_of_blank blank, Split.addReasoning]
      · simp [trimEnd_append, blank]
    · refine ⟨ws ++ trimEnd more, ?_, ?_⟩
      · cases closing <;> simp [emitReasoning, blank, trailingSpace_append]
      · rw [pending, ← List.append_assoc, trimEnd_append_trailingSpace,
          trimEnd_append, if_neg blank]
  | false =>
    -- nothing has shown yet, so nothing is pending either
    obtain ⟨rfl, hidden⟩ : opened = false ∧ visible opened text = [] := by
      simpa using hasStarted.symm
    rw [hidden] at pending
    subst pending
    simp only [hidden, Bool.false_eq_true, if_false, Bool.false_or]
    refine ⟨trimEnd (trimStart more), ?_, rfl⟩
    by_cases blank : trimStart more = []
    · cases closing <;> simp [emitReasoning, blank, trimEnd, trailingSpace, Split.addReasoning]
    · have shown : trimEnd (trimStart more) ≠ [] :=
        fun empty => blank (trimEnd_trimStart_eq_nil.mp empty)
      cases closing <;> simp [emitReasoning, blank, shown, trailingSpace]

/-- Emitting in two steps is emitting once. -/
lemma emitReasoning_emitReasoning (first second : Text) (closing : Bool) :
    let step := emitReasoning splitter out first false
    emitReasoning step.1 step.2 second closing =
      emitReasoning splitter out (first ++ second) closing := by
  obtain ⟨deltaFirst, emissionFirst, totalFirst⟩ :=
    emitReasoning_spec splitter emitted out first false
  obtain ⟨deltaWhole, emissionWhole, totalWhole⟩ :=
    emitReasoning_spec splitter emitted out (first ++ second) closing
  let between := (emitReasoning splitter out first false).1
  have later : Emitted opened (text ++ first) between.pendingWs between.reasoningStarted := by
    simp only [between, emissionFirst]
    exact ⟨rfl, rfl⟩
  obtain ⟨deltaSecond, emissionSecond, totalSecond⟩ :=
    emitReasoning_spec between later (emitReasoning splitter out first false).2 second closing
  have joined : deltaWhole = deltaFirst ++ deltaSecond := by
    rw [← totalFirst, List.append_assoc, List.append_assoc, ← totalWhole] at totalSecond
    exact (List.append_cancel_left totalSecond).symm
  dsimp only [between] at emissionSecond ⊢
  rw [emissionSecond, emissionWhole, emissionFirst, joined]
  simp [Split.addReasoning, List.append_assoc]

end

/-!
The output is only ever added to, so what a drain produces can be appended to
what came before it.
-/

section Accumulation
section
variable (first second : Split) (text : Text)

@[simp]
lemma append_addReasoning :
    (first.append second).addReasoning text = first.append (second.addReasoning text) := by
  simp [Split.append, Split.addReasoning]

@[simp]
lemma append_addContent :
    (first.append second).addContent text = first.append (second.addContent text) := by
  simp [Split.append, Split.addContent]

end

/-- Put earlier output in front of a result. -/
def withEarlier (earlier : Split) (result : Splitter × Split) : Splitter × Split :=
  (result.1, earlier.append result.2)

section
variable (splitter : Splitter) (earlier out : Split) (text : Text)

lemma emitReasoning_append (closing : Bool) :
    emitReasoning splitter (earlier.append out) text closing =
      withEarlier earlier (emitReasoning splitter out text closing) := by
  simp [emitReasoning_eq, withEarlier]

lemma emitContent_append : emitContent splitter (earlier.append out) text =
      withEarlier earlier (emitContent splitter out text) := by
  unfold emitContent
  split
  · dsimp only
    split <;> simp [withEarlier]
  · simp [withEarlier]

end

/-- Put earlier output in front of what a round does. -/
def roundWithEarlier (earlier : Split) : Round (Splitter × Split) (Splitter × Split) →
      Round (Splitter × Split) (Splitter × Split)
  | .next later => .next (withEarlier earlier later)
  | .stop result => .stop (withEarlier earlier result)

section
variable (flushing : Bool) (splitter : Splitter) (earlier out : Split)

lemma drainRound_append : drainRound flushing (splitter, earlier.append out) =
      roundWithEarlier earlier (drainRound flushing (splitter, out)) := by
  obtain ⟨format, state, buf, ws, begun⟩ := splitter
  cases state with
  | content afterReasoning =>
    cases format <;> simp only [drainRound, roundWithEarlier, emitContent_append]
  | start =>
    cases format with
    | tags start close =>
      simp only [drainRound]
      split
      · rfl
      · split <;> rfl
    | none | harmony => rfl
  | reasoning =>
    cases format with
    | tags start close =>
      simp only [drainRound]
      split
      · simp only [emitReasoning_append]
        rfl
      · split
        · rfl
        · simp only [emitReasoning_append]
          rfl
    | none | harmony => rfl
  | header =>
    cases format with
    | harmony =>
      simp only [drainRound]
      split
      · simp only [append_addContent]
        split <;> rfl
      · split <;> rfl
    | none | tags start close => rfl
  | body channel =>
    cases format with
    | harmony =>
      simp only [drainRound]
      split
      · cases channel <;> simp only [emitReasoning_append, append_addContent] <;> rfl
      · split
        · rfl
        · cases channel <;> simp only [emitReasoning_append, append_addContent] <;> rfl
    | none | tags start close => rfl

lemma drain_append : drain flushing splitter (earlier.append out) =
      withEarlier earlier (drain flushing splitter out) := by
  generalize size : drainMeasure (splitter, out) = bound
  induction bound using Nat.strongRecOn generalizing splitter out with
  | ind bound ih =>
    have shifted := drainRound_append flushing splitter earlier out
    cases step : drainRound flushing (splitter, out) with
    | stop result =>
      rw [step] at shifted
      rw [drain, Loop.run_stop _ shifted, drain, Loop.run_stop _ step]
    | next later =>
      rw [step] at shifted
      rw [drain, Loop.run_next _ shifted]
      have lower := drainRound_decreases flushing _ _ step
      have rest := ih _ (size ▸ lower) later.1 later.2
        rfl
      rw [drain.eq_def flushing splitter, Loop.run_next _ step]
      exact rest

end

lemma append_empty (out : Split) : out.append Split.empty = out := by
  simp [Split.append, Split.empty]

lemma append_assoc (first second third : Split) : (first.append second).append third =
      first.append (second.append third) := by
  simp [Split.append]

/-- What holds after draining a longer buffer holds after a piece is fed to
a splitter that has not settled. -/
lemma push_of_drain {progress : Splitter → Split → Prop} (splitter : Splitter)
    (undecided : splitter.isPlain = false) (piece : Text) (total : Split)
    (drained :
      let result := drain false { splitter with buf := splitter.buf ++ piece } total
      progress result.1 result.2) :
    progress (push splitter piece).1 (total.append (push splitter piece).2) := by
  have shifted := drain_append false
    { splitter with buf := splitter.buf ++ piece } total Split.empty
  rw [append_empty] at shifted
  rw [shifted] at drained
  rw [push, if_neg (by simp [undecided])]
  exact drained

/-- The rule for a whole text: what a relation keeps at every piece and turns
into a result at the end holds of the text however it is cut. -/
lemma feed_rule (progress : Text → Splitter → Split → Prop) {result : Text → Split}
    (step : ∀ text splitter total piece, progress text splitter total →
      progress (text ++ piece) (push splitter piece).1 (total.append (push splitter piece).2))
    (final : ∀ text splitter total, progress text splitter total →
      total.append (finish splitter) = result text) (pieces : List Text) {text : Text}
    {splitter : Splitter} {total : Split} (start : progress text splitter total) :
    total.append (feed splitter pieces) = result (text ++ pieces.flatten) := by
  induction pieces generalizing text splitter total with
  | nil =>
    rw [List.flatten_nil, List.append_nil]
    exact final text splitter total start
  | cons piece pieces ih =>
    have next := ih (step text splitter total piece start)
    rw [append_assoc, List.append_assoc] at next
    exact next

end Accumulation

end Splitter

end Joshua

namespace Joshua.Splitter
open Joshua.Foundation List
open Split (addContent addReasoning append empty)

/-- What an opened block of reasoning and the text after it come to. -/
def openedResult (close body : Text) : Split :=
  match find close body with
  | some (before, after) => ⟨trim before, trimStart after⟩
  | none => ⟨trim body, []⟩

/-- One look at a whole output.  A start tag is looked for only when the
prompt has not opened the block already. -/
def tagsResult (start close : Text) (inReasoning : Bool) (text : Text) : Split :=
  if inReasoning then
    openedResult close text
  else if start.isPrefixOf (trimStart text) then
    openedResult close ((trimStart text).drop start.length)
  else
    ⟨[], text⟩

/-- `body` is the part of `text` inside the block. -/
def Opened (start : Text) (inReasoning : Bool) (text body : Text) : Prop :=
  if inReasoning then body = text else trimStart text = start ++ body

section
variable {start close : Text} {inReasoning : Bool} {text : Text}

lemma Opened.append {body : Text} (filled : start ≠ [])
    (opened : Opened start inReasoning text body) (piece : Text) :
    Opened start inReasoning (text ++ piece) (body ++ piece) := by
  unfold Opened at opened ⊢
  cases inReasoning with
  | true =>
    simp only [if_true] at opened ⊢
    rw [opened]
  | false =>
    simp only [Bool.false_eq_true, if_false] at opened ⊢
    have shown : trimStart text ≠ [] := by
      rw [opened]
      exact fun empty => filled (append_eq_nil_iff.mp empty).1
    rw [trimStart_append_of_ne_nil shown, opened, List.append_assoc]

lemma Opened.result {body : Text} (opened : Opened start inReasoning text body) :
    tagsResult start close inReasoning text = openedResult close body := by
  unfold Opened at opened
  cases inReasoning with
  | true =>
    simp only [if_true] at opened
    simp [tagsResult, opened]
  | false =>
    simp only [Bool.false_eq_true, if_false] at opened
    simp [tagsResult, opened]

/-- Where the splitter stands after `text`, with the output so far. -/
inductive TagsProgress (start close : Text) (inReasoning : Bool) : Text → Splitter → Split → Prop
  | waiting {text : Text} (unopened : inReasoning = false)
      (undecided : ¬ start <+: trimStart text)
      (possible : trimStart text <+: start) :
      TagsProgress start close inReasoning text ⟨.tags start close, .start, text, [], false⟩ empty
  | inside {text body passed buf pendingWs : Text} {started : Bool}
      (opened : Opened start inReasoning text body)
      (split : body = passed ++ buf)
      (missing : cutFirst [close] body = none)
      (hold : ∀ tail, cutFirst [close] (body ++ tail) =
        (cutFirst [close] (buf ++ tail)).map (Cut.prepend passed))
      (emitted : Emitted false passed pendingWs started) :
      TagsProgress start close inReasoning text
        ⟨.tags start close, .reasoning, buf, pendingWs, started⟩
        ⟨trim passed, []⟩
  | closed {text body : Text} {cut : Cut Char} {started : Bool}
      (opened : Opened start inReasoning text body)
      (found : cutFirst [close] body = some cut) :
      TagsProgress start close inReasoning text
        ⟨.tags start close, .content (trimStart cut.after).isEmpty, [], [], started⟩
        ⟨trim cut.before, trimStart cut.after⟩
  | plain {text : Text} (unopened : inReasoning = false)
      (never : ∀ tail, ¬ start <+: trimStart (text ++ tail)) :
      TagsProgress start close inReasoning text
        ⟨.tags start close, .content false, [], [], false⟩ ⟨[], text⟩

lemma find_eq {pattern : Text} : find pattern text =
      (cutFirst [pattern] text).map fun cut => (cut.before, cut.after) :=
  rfl

lemma drain_content (flushing afterReasoning begun : Bool)
    (format : ReasoningFormat) (buf ws : Text) (out : Split) :
    drain flushing ⟨format, .content afterReasoning, buf, ws, begun⟩ out =
      emitContent ⟨format, .content afterReasoning, [], ws, begun⟩ out buf := by
  cases format <;> exact Loop.run_stop _ rfl

/-- The answer after a block starts at its first visible character. -/
lemma emitContent_after (begun : Bool) (format : ReasoningFormat)
    (ws reasoning text : Text) :
    emitContent ⟨format, .content true, [], ws, begun⟩ ⟨reasoning, []⟩ text =
      (⟨format, .content (trimStart text).isEmpty, [], ws, begun⟩,
        ⟨reasoning, trimStart text⟩) := by
  cases shape : trimStart text with
  | nil => simp [emitContent, shape]
  | cons head rest => simp [emitContent, shape, addContent]

lemma map_prepend_nil (cut : Option (Cut Char)) : cut.map (Cut.prepend []) = cut := by
  cases cut <;> rfl

/-- Draining from inside the block, with anything in the buffer. -/
lemma drain_inside {body passed buf ws : Text} {begun : Bool}
    (opened : Opened start inReasoning text body) (split : body = passed ++ buf)
    (hold : ∀ tail, cutFirst [close] (body ++ tail) =
      (cutFirst [close] (buf ++ tail)).map (Cut.prepend passed))
    (emitted : Emitted false passed ws begun) :
    let result := drain false
      ⟨.tags start close, .reasoning, buf, ws, begun⟩
      ⟨trim passed, []⟩
    TagsProgress start close inReasoning text result.1 result.2 := by
  have here := hold []
  simp only [append_nil] at here
  cases found : cutFirst [close] buf with
  | some cut =>
    rw [found, Option.map_some] at here
    obtain ⟨delta, closing, total⟩ :=
      emitReasoning_spec
        ⟨.tags start close, .reasoning, cut.after, ws, begun⟩
        emitted ⟨trim passed, []⟩ cut.before true
    have step : drainRound false
        (⟨.tags start close, .reasoning, buf, ws, begun⟩, ⟨trim passed, []⟩) =
        .next
          (⟨.tags start close, .content true, cut.after, [],
            !(visible false (passed ++ cut.before)).isEmpty⟩,
            ⟨trim (passed ++ cut.before), []⟩) := by
      have joined : trim passed ++ delta = trim (passed ++ cut.before) := total
      simp [drainRound, find_eq, found, closing, addReasoning, joined]
    rw [drain, Loop.run_next _ step, ← drain, drain_content, emitContent_after]
    exact .closed opened here
  | none =>
    rw [found, Option.map_none] at here
    obtain ⟨delta, emission, total⟩ :=
      emitReasoning_spec
        ⟨.tags start close, .reasoning, held [close] buf, ws, begun⟩
        emitted ⟨trim passed, []⟩ (settled [close] buf) false
    have joined : trim passed ++ delta = trim (passed ++ settled [close] buf) := total
    have step : drainRound false
        (⟨.tags start close, .reasoning, buf, ws, begun⟩, ⟨trim passed, []⟩) =
        .stop
          (⟨.tags start close, .reasoning, held [close] buf,
              trailingSpace (visible false (passed ++ settled [close] buf)),
              !(visible false (passed ++ settled [close] buf)).isEmpty⟩,
            ⟨trim (passed ++ settled [close] buf), []⟩) := by
      simp [drainRound, find_eq, found, emission, addReasoning, joined]
    rw [drain, Loop.run_stop _ step]
    refine .inside opened ?_ here ?_ ⟨rfl, by simp⟩
    · rw [split, List.append_assoc, settled_append_held]
    · intro tail
      rw [hold tail, cutFirst_hold found, Option.map_map]
      congr 1
      funext cut
      exact Cut.prepend_prepend _ _ cut

/-- Draining before the block, with anything in the buffer. -/
lemma drain_start (unopened : inReasoning = false) :
    let result := drain false ⟨.tags start close, .start, text, [], false⟩ empty
    TagsProgress start close inReasoning text result.1 result.2 := by
  by_cases tagged : start <+: trimStart text
  · obtain ⟨body, shape⟩ := tagged
    have step : drainRound false (⟨.tags start close, .start, text, [], false⟩, empty) =
        .next (⟨.tags start close, .reasoning, body, [], false⟩, empty) := by
      simp [drainRound, ← shape]
    rw [drain, Loop.run_next _ step, ← drain]
    have opened : Opened start inReasoning text body := by simp [Opened, unopened, shape]
    have blank : empty = ⟨trim [], []⟩ := rfl
    rw [blank]
    exact drain_inside opened rfl (fun _ => (map_prepend_nil _).symm) (.nil false)
  · by_cases possible : trimStart text <+: start
    · have step : drainRound false (⟨.tags start close, .start, text, [], false⟩, empty) =
          .stop (⟨.tags start close, .start, text, [], false⟩, empty) := by
        simp [drainRound, tagged, possible]
      rw [drain, Loop.run_stop _ step]
      exact .waiting unopened tagged possible
    · have step : drainRound false (⟨.tags start close, .start, text, [], false⟩, empty) =
          .next (⟨.tags start close, .content false, text, [], false⟩, empty) := by
        simp [drainRound, tagged, possible]
      rw [drain, Loop.run_next _ step, ← drain, drain_content]
      refine .plain unopened fun tail begins => ?_
      have shown : trimStart text ≠ [] := by
        intro empty
        rw [empty] at possible
        exact possible nil_prefix
      rw [trimStart_append_of_ne_nil shown] at begins
      rcases prefix_append_cases begins with within | ⟨covered, _⟩
      · exact tagged within
      · exact possible covered

/-- One piece more. -/
lemma TagsProgress.push (filled : start ≠ []) {splitter : Splitter} {total : Split}
    (progress : TagsProgress start close inReasoning text splitter total) (piece : Text) :
    TagsProgress start close inReasoning (text ++ piece)
      (Splitter.push splitter piece).1
      (total.append (Splitter.push splitter piece).2) := by
  cases progress with
  | waiting unopened undecided possible => exact push_of_drain _ rfl piece _ (drain_start unopened)
  | inside opened split missing hold emitted =>
    rename_i body passed buf ws begun
    have longer : body ++ piece = passed ++ (buf ++ piece) := by rw [split, List.append_assoc]
    have holdLonger : ∀ tail, cutFirst [close] (body ++ piece ++ tail) =
        (cutFirst [close] (buf ++ piece ++ tail)).map (Cut.prepend passed) := by
      intro tail
      rw [List.append_assoc, hold, List.append_assoc]
    exact push_of_drain _ rfl piece _
      (drain_inside (opened.append filled piece) longer holdLonger emitted)
  | closed opened found =>
    rename_i body cut begun
    have later := cutFirst_append (apart_singleton close) found piece
    have closed : TagsProgress start close inReasoning (text ++ piece)
        ⟨.tags start close, .content (trimStart (cut.after ++ piece)).isEmpty, [], [], begun⟩
        ⟨trim cut.before, trimStart (cut.after ++ piece)⟩ :=
      .closed (opened.append filled piece) later
    rw [trimStart_append] at closed
    cases shape : trimStart cut.after with
    | nil =>
      rw [if_pos shape] at closed
      refine push_of_drain _ rfl piece _ ?_
      rw [drain_content]
      dsimp only [nil_append, isEmpty_nil]
      rw [emitContent_after]
      exact closed
    | cons head rest =>
      rw [if_neg (by simp [shape]), shape] at closed
      simpa [Splitter.push, isPlain, append, addContent, empty] using closed
  | plain unopened never =>
    refine .plain unopened fun tail => ?_
    rw [List.append_assoc]
    exact never (piece ++ tail)

/-- The flush completes the result. -/
lemma TagsProgress.finish {splitter : Splitter} {total : Split}
    (progress : TagsProgress start close inReasoning text splitter total) :
    total.append (Splitter.finish splitter) = tagsResult start close inReasoning text := by
  cases progress with
  | waiting unopened undecided possible =>
    have step : drainRound true (⟨.tags start close, .start, text, [], false⟩, empty) =
        .next (⟨.tags start close, .content false, text, [], false⟩, empty) := by
      simp [drainRound, undecided]
    have drained : drain true ⟨.tags start close, .start, text, [], false⟩ empty =
        (⟨.tags start close, .content false, [], [], false⟩, ⟨[], text⟩) := by
      rw [drain, Loop.run_next _ step, ← drain, drain_content]
      rfl
    rw [Splitter.finish, drained]
    simp [flush, tagsResult, unopened, undecided, append, addContent, empty]
  | inside opened split missing hold emitted =>
    rename_i body passed buf ws begun
    have here := hold []
    simp only [append_nil, missing] at here
    have bufMissing : cutFirst [close] buf = none := by simpa using here.symm
    have step : drainRound true
        (⟨.tags start close, .reasoning, buf, ws, begun⟩, empty) =
        .stop (⟨.tags start close, .reasoning, buf, ws, begun⟩, empty) := by
      simp [drainRound, find_eq, bufMissing]
    have drained : drain true ⟨.tags start close, .reasoning, buf, ws, begun⟩
        empty = _ := Loop.run_stop _ step
    obtain ⟨delta, closing, joined⟩ :=
      emitReasoning_spec
        ⟨.tags start close, .reasoning, [], ws, begun⟩ emitted
        empty buf true
    have whole : trim passed ++ delta = trim (passed ++ buf) := joined
    rw [opened.result, openedResult, find_eq, missing, split, ← whole]
    rw [Splitter.finish, drained]
    simp only [flush]
    rw [closing]
    simp [append, addReasoning, empty]
  | closed opened found =>
    rename_i body cut begun
    rw [opened.result, openedResult, find_eq, found, Splitter.finish, drain_content]
    have blank : trimStart [] = [] := rfl
    cases shape : trimStart cut.after <;>
      simp [flush, emitContent, append, empty, addContent, blank, shape]
  | plain unopened never =>
    have untagged : ¬ start <+: trimStart text := by simpa using never []
    rw [Splitter.finish, drain_content]
    simp [flush, emitContent, tagsResult, unopened, untagged, append, empty, addContent]

lemma TagsProgress.initial (startNonempty : start ≠ []) (closeNonempty : close ≠ []) :
    TagsProgress start close inReasoning [] (new (.tags start close) inReasoning) empty := by
  have blank : trimStart [] = [] := rfl
  cases inReasoning with
  | false =>
    refine .waiting rfl ?_ ?_
    · rw [blank, prefix_nil]
      exact startNonempty
    · rw [blank]
      exact nil_prefix
  | true =>
    have missing : cutFirst [close] [] = none := by
      rw [cutFirst, longestPrefix_eq_none.mpr]
      · rfl
      · intro marker mem begins
        rw [mem_singleton.mp mem, prefix_nil] at begins
        exact closeNonempty begins
    have opened : Opened start true [] [] := rfl
    exact .inside opened rfl missing (fun _ => (map_prepend_nil _).symm) (.nil false)

end

/-- However the output is cut, the reasoning and the answer are those of one
look at the whole text. -/
theorem feed_tags (start close : Text) (startNonempty : start ≠ []) (closeNonempty : close ≠ [])
    (inReasoning : Bool) (pieces : List Text) :
    feed (new (.tags start close) inReasoning) pieces =
      tagsResult start close inReasoning pieces.flatten := by
  have fed := feed_rule (TagsProgress start close inReasoning)
    (fun _ _ _ piece progress => progress.push startNonempty piece)
    (fun _ _ _ progress => progress.finish) pieces
    (TagsProgress.initial startNonempty closeNonempty)
  simpa [append, empty] using fed

/-- A tag cut in two, and whitespace on both sides of the block. -/
theorem feed_tags_of_think : "<think>".toList ≠ [] ∧ "</think>".toList ≠ [] ∧
      feed (new (.tags "<think>".toList "</think>".toList) false)
          ["\n<th".toList, "ink>\nHm".toList, ". </thi".toList, "nk>\n\nHi".toList] =
        ⟨"Hm.".toList, "Hi".toList⟩ :=
  ⟨by decide, by decide, (feed_tags _ _ (by decide) (by decide) false _).trans (by decide)⟩

/-- A start tag that the model repeats after the prompt has opened the block
is part of the reasoning. -/
theorem feed_tags_keeps_repeated_start : feed (new (.tags "<think>".toList "</think>".toList) true)
        ["<think>a</think>b".toList] =
      ⟨"<think>a".toList, "b".toList⟩ ∧
    "<think>a".toList ≠ trim "a".toList := by
  decide

end Joshua.Splitter
