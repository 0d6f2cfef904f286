/-
Module: Joshua.Proofs.ToolStreamPlace
Purpose: A client that puts tool calls together from the events of a stream;
  the place of the stream in its text, and what the functions that `drain`
  calls do to it: every slice and index they take is in range and between two
  characters.
Trusted boundary: none
-/
import Joshua.Model.ToolStream
import Mathlib.Data.List.GetD
import Mathlib.Order.Bounds.Basic

namespace Joshua
open Joshua.Foundation List

/-- The arguments a client has for each call, after one more event.  It fails
at a call that does not start in order and at arguments for a call that has
not started. -/
def receive (args : List Text) : ToolEvent → Option (List Text)
  | .text _ => some args
  | .callStart index _ _ => if index = args.length then some (args ++ [[]]) else none
  | .callArgs index delta => args[index]?.map fun known => args.set index (known ++ delta)

def receiveAll (args : List Text) (events : List ToolEvent) : Option (List Text) :=
  events.foldlM receive args

section
variable (args : List Text)

lemma receiveAll_append (first second : List ToolEvent) : receiveAll args (first ++ second) =
      (receiveAll args first).bind fun middle => receiveAll middle second :=
  foldlM_append

/-- Prose is nothing to a client of calls. -/
lemma receiveAll_pushText (out : List ToolEvent) (text : Text) :
    receiveAll args (pushText out text) = receiveAll args out := by
  have silent : ∀ (front : List ToolEvent) (said : Text),
      receiveAll args (front ++ [.text said]) = receiveAll args front := by
    intro front said
    rw [receiveAll_append]
    cases receiveAll args front <;> rfl
  rw [pushText]
  split
  · rfl
  · split
    next last found =>
      obtain ⟨front, rfl⟩ := List.getLast?_eq_some_iff.mp found
      rw [dropLast_concat, silent, silent]
    next => exact silent out text

end

/-! ## Text that may still become a marker -/

section
variable {text pattern : Text}

lemma endsWithStart_iff {n : Nat} : endsWithStart text pattern n = true ↔
    ∃ tail, tail <+: pattern ∧ tail <:+ text ∧ byteLength tail = n := by
  rw [endsWithStart]
  cases cut : splitAt pattern n with
  | ok parts =>
    obtain ⟨rfl, rfl⟩ := splitAt_eq_ok.mp cut
    rw [isSuffixOf_iff_suffix]
    refine ⟨fun ends => ⟨_, prefix_append _ _, ends, rfl⟩, ?_⟩
    rintro ⟨tail, starts, ends, same⟩
    have shorter := prefix_of_byteLength_le starts (prefix_append _ _) same.le
    have longer := prefix_of_byteLength_le (prefix_append _ _) starts same.ge
    rwa [← shorter.eq_of_length_le longer.length_le]
  | error =>
    refine ⟨fun absent => (Bool.false_ne_true absent).elim, ?_⟩
    rintro ⟨tail, ⟨rest, rfl⟩, _, rfl⟩
    cases cut.symm.trans (splitAt_byteLength tail rest)

variable (text) (patterns : List Text)

/-- The sizes of the ends of a text that are proper beginnings of a pattern. -/
def openEnds : Set Nat :=
  {n | ∃ tail, tail <:+ text ∧ byteLength tail = n ∧
    ∃ pattern ∈ patterns, tail <+: pattern ∧ tail ≠ pattern}

lemma partialSuffixBytes_isGreatest :
    IsGreatest (insert 0 (openEnds text patterns)) (partialSuffixBytes text patterns) := by
  obtain ⟨found, longest⟩ : _ ∧ _ := foldl_searchDown_spec
    (P := fun pattern n => endsWithStart text pattern n)
    (fun keep pattern => searchDown_eq (f := partialSuffixFrom text pattern keep) rfl
      (fun _ => rfl) (min (byteLength pattern - 1) (byteLength text))) patterns
  refine ⟨or_iff_not_imp_left.mpr fun nonzero => ?_, ?_⟩
  · obtain ⟨pattern, mem, within, starts⟩ := found.resolve_left nonzero
    obtain ⟨tail, starts, ends, same⟩ := endsWithStart_iff.mp starts
    refine ⟨tail, ends, same, pattern, mem, starts, ?_⟩
    rintro rfl
    rw [← same] at within
    have filled : byteLength tail ≠ 0 := fun zero => nonzero (same.symm.trans zero)
    omega
  · rintro _ (rfl | ⟨tail, ⟨front, rfl⟩, rfl, _, mem, ⟨rest, rfl⟩, proper⟩)
    · exact Nat.zero_le _
    · refine longest _ mem _ (le_min ?_ ?_)
        (endsWithStart_iff.mpr ⟨tail, prefix_append _ _, suffix_append _ _, rfl⟩)
      · have filled : 0 < byteLength rest :=
          byteLength_pos fun empty => proper (by rw [empty, append_nil])
        rw [byteLength_append]
        omega
      · rw [byteLength_append]
        exact Nat.le_add_left _ _

/-- In characters that end is what is held back. -/
lemma partialSuffixBytes_eq_held :
    partialSuffixBytes text patterns = byteLength (held patterns text) := by
  have ends : held patterns text <:+ text := drop_suffix _ _
  refine (partialSuffixBytes_isGreatest text patterns).unique ⟨?_, ?_⟩
  · refine or_iff_not_imp_left.mpr fun filled => ?_
    have positive : (held patterns text).length ≠ 0 := fun empty =>
      filled (length_eq_zero_iff.mp empty ▸ rfl)
    obtain ⟨pattern, mem, within, starts⟩ := (partialSuffix_spec patterns text).1.resolve_left
      (length_held patterns text ▸ positive)
    rw [← length_held] at within starts
    have size : (pattern.take (held patterns text).length).length =
        (held patterns text).length := by
      rw [length_take]
      omega
    have same := (suffix_of_suffix_length_le (isSuffixOf_iff_suffix.mp starts) ends
      size.le).eq_of_length size
    refine ⟨_, ends, rfl, pattern, mem, same ▸ take_prefix _ _, fun whole => ?_⟩
    rw [whole] at within positive
    omega
  · rintro _ (rfl | ⟨tail, last, rfl, pattern, mem, starts, proper⟩)
    · exact Nat.zero_le _
    · have shorter : tail.length < pattern.length :=
        lt_of_le_of_ne starts.length_le fun same => proper (starts.eq_of_length same)
      have most := partialSuffix_max mem last starts shorter
      rw [← length_held] at most
      obtain ⟨front, same⟩ := suffix_of_suffix_length_le last ends most
      rw [← same, byteLength_append]
      exact Nat.le_add_left _ _

/-- `partial_suffix` is the size of the longest end of the text that is a
proper beginning of a pattern, and whatever follows the text, an occurrence of
a pattern that is not complete in it starts at or after that end. -/
theorem partialSuffixBytes_longest :
    IsGreatest (insert 0 (openEnds text patterns)) (partialSuffixBytes text patterns) ∧
    ∀ more front after, ∀ pattern ∈ patterns, text ++ more = front ++ (pattern ++ after) →
      byteLength text < byteLength front + byteLength pattern →
      byteLength text - partialSuffixBytes text patterns ≤ byteLength front := by
  have greatest := partialSuffixBytes_isGreatest text patterns
  refine ⟨greatest, fun more front after pattern mem whole incomplete => ?_⟩
  by_contra early
  -- the part of the pattern that the text holds is one of the ends
  obtain ⟨tail, rfl⟩ : front <+: text :=
    prefix_of_byteLength_le ⟨_, whole.symm⟩ (prefix_append _ _) (by omega)
  rw [append_assoc, append_cancel_left_eq] at whole
  rw [byteLength_append] at incomplete early
  have starts : tail <+: pattern :=
    prefix_of_byteLength_le (prefix_append _ _) ⟨_, whole.symm⟩ (by omega)
  have proper : tail ≠ pattern := by
    rintro rfl
    omega
  have held := greatest.2 (.inr ⟨tail, suffix_append _ _, rfl, pattern, mem, starts, proper⟩)
  omega

end

/-! ## What the events say -/

/-- The indices of the calls that start, in order. -/
def starts (events : List ToolEvent) : List Nat :=
  events.filterMap fun event =>
    match event with
    | .callStart index _ _ => some index
    | _ => none

/-- The arguments sent for one call, put together. -/
def deltas (index : Nat) (events : List ToolEvent) : Text :=
  events.flatMap fun event =>
    match event with
    | .callArgs other delta => if other = index then delta else []
    | _ => []

/-- The events tell a client the calls of a stream: calls start in order and
without a gap, arguments are only sent for a call that has started, and the
arguments sent for a call are those the stream has recorded. -/
structure Told (stream : ToolStream) (events : List ToolEvent) : Prop where
  inOrder : starts events = List.range stream.calls.length
  started : ∀ before index delta after,
    events = before ++ .callArgs index delta :: after → index ∈ starts before
  recorded : ∀ index call, stream.calls[index]? = some call → deltas index events = call.args

lemma receive_cases {args next : List Text} {event : ToolEvent}
    (received : receive args event = some next) :
    (∃ text, event = .text text ∧ next = args) ∨
    (∃ id name, event = .callStart args.length id name ∧
      next = args ++ [[]]) ∨
    (∃ i delta known, event = .callArgs i delta ∧
      args[i]? = some known ∧ next = args.set i (known ++ delta)) := by
  cases event with
  | text text =>
    cases received
    exact .inl ⟨text, rfl, rfl⟩
  | callStart i id name =>
    rw [receive] at received
    split at received
    next same =>
      cases received
      exact .inr (.inl ⟨id, name, by rw [same], rfl⟩)
    next => cases received
  | callArgs i delta =>
    rw [receive, Option.map_eq_some_iff] at received
    obtain ⟨known, found, rfl⟩ := received
    exact .inr (.inr ⟨i, delta, known, rfl, found, rfl⟩)

variable {events : List ToolEvent}

lemma starts_append (first second : List ToolEvent) :
    starts (first ++ second) = starts first ++ starts second :=
  filterMap_append

lemma deltas_append (i : Nat) (first second : List ToolEvent) :
    deltas i (first ++ second) = deltas i first ++ deltas i second :=
  flatMap_append

/-- What a client that knew nothing knows at the end. -/
lemma receiveAll_spec {final : List Text} (received : receiveAll [] events = some final) :
    starts events = List.range final.length ∧
      (∀ before i delta after, events = before ++ .callArgs i delta :: after → i ∈ starts before) ∧
      ∀ i, deltas i events = final.getD i [] := by
  induction events using List.reverseRecOn generalizing final with
  | nil =>
    cases received
    refine ⟨rfl, ?_, fun _ => rfl⟩
    intro before i delta after never
    simp at never
  | append_singleton events event ih =>
    rw [receiveAll_append, Option.bind_eq_some_iff] at received
    obtain ⟨args, earlier, last⟩ := received
    have last : receive args event = some final := by simpa [receiveAll] using last
    obtain ⟨order, begun, told⟩ := ih earlier
    -- only the last event can be one that was not there before
    have sent : ∀ before i delta after, events ++ [event] = before ++ .callArgs i delta :: after →
        i ∈ starts before ∨ event = .callArgs i delta ∧ before = events := by
      intro before i delta after split
      rcases eq_nil_or_concat after with rfl | ⟨front, other, rfl⟩
      · obtain ⟨same, shape⟩ := append_inj' split rfl
        exact .inr ⟨List.cons.inj shape |>.1, same.symm⟩
      · rw [concat_eq_append, ← cons_append, ← append_assoc] at split
        exact .inl (begun _ _ _ _ (append_inj' split rfl).1)
    simp only [starts_append, deltas_append, order, told]
    rcases receive_cases last with
      ⟨text, rfl, rfl⟩ | ⟨id, name, rfl, rfl⟩ | ⟨i, delta, known, rfl, found, rfl⟩
    · refine ⟨append_nil _, ?_, fun i => append_nil _⟩
      intro before i delta after split
      exact (sent _ _ _ _ split).resolve_right fun other => by cases other.1
    · refine ⟨?_, ?_, ?_⟩
      · rw [length_append, length_singleton, range_succ]
        rfl
      · intro before i delta after split
        exact (sent _ _ _ _ split).resolve_right fun other => by cases other.1
      · intro i
        rcases lt_or_ge i args.length with below | beyond
        · rw [getD_append _ _ _ _ below]
          exact append_nil _
        · rw [getD_append_right _ _ _ _ beyond, getD_eq_default _ _ beyond]
          exact (getElem?_getD_singleton_default_eq _ _).symm
    · obtain ⟨within, value⟩ := List.getElem?_eq_some_iff.mp found
      refine ⟨?_, ?_, ?_⟩
      · rw [length_set]
        exact append_nil _
      · intro before j other after split
        rcases sent _ _ _ _ split with old | ⟨same, rfl⟩
        · exact old
        · cases same
          rw [order, mem_range]
          exact within
      · intro j
        by_cases same : i = j
        · subst same
          simp [deltas, List.getD, within, value]
        · simp [deltas, same, List.getD, List.getElem?_set_ne same]

variable {stream : ToolStream}

/-- A client that ends with the recorded arguments was told the calls. -/
lemma receiveAll_told (received : receiveAll [] events = some (stream.calls.map Sent.args)) :
    Told stream events := by
  obtain ⟨order, begun, told⟩ := receiveAll_spec received
  rw [List.length_map] at order
  refine ⟨order, begun, ?_⟩
  intro i call found
  simpa [List.getD, found] using told i

/-- The lengths a scan of a nonempty region gives lie in the region and
between two characters. -/
structure Grammar.ScansInside (grammar : Grammar) : Prop where
  text : ∀ region finished length, region ≠ [] → grammar.scan region finished = .text length →
    isCharBoundary region length = true
  ending : ∀ region finished calls length, region ≠ [] →
    grammar.scan region finished = .calls calls (some length) →
    isCharBoundary region length = true

/-! ## The place of a stream in its text -/

/-- A stream that has `rest` before it: the position is a boundary, an open
region starts there and is not empty, and a break lies inside it. -/
structure Sound (stream : ToolStream) (rest : Text) : Prop where
  placed : ∃ consumed, stream.text = consumed ++ rest ∧ byteLength consumed = stream.pos
  region : ∀ start, stream.region = some start → start = stream.pos ∧ rest ≠ []
  broken : ∀ start, stream.broken = some start → stream.region = some stream.pos ∧ 0 < start ∧
      isCharBoundary rest start = true
  first : stream.regionFirst ≤ stream.calls.length

/-- Nothing but prose, calls and flags has changed, and no call is lost. -/
structure SamePlace (before after : ToolStream) : Prop where
  text : after.text = before.text
  pos : after.pos = before.pos
  region : after.region = before.region
  regionFirst : after.regionFirst = before.regionFirst
  broken : after.broken = before.broken
  calls : before.calls.length ≤ after.calls.length

namespace SamePlace

lemma refl (stream : ToolStream) : SamePlace stream stream :=
  ⟨rfl, rfl, rfl, rfl, rfl, le_rfl⟩

lemma trans {first second third : ToolStream} (left : SamePlace first second)
    (right : SamePlace second third) : SamePlace first third :=
  ⟨right.text.trans left.text, right.pos.trans left.pos, right.region.trans left.region,
    right.regionFirst.trans left.regionFirst,
    right.broken.trans left.broken, left.calls.trans right.calls⟩

end SamePlace

namespace Sound

variable {stream : ToolStream} {rest : Text}

section
variable (sound : Sound stream rest)
include sound

lemma split : ∃ consumed, splitAt stream.text stream.pos = .ok (consumed, rest) := by
  obtain ⟨consumed, whole, pos⟩ := sound.placed
  exact ⟨consumed, splitAt_eq_ok.mpr ⟨whole, pos⟩⟩

variable {after : ToolStream}

lemma of_samePlace (same : SamePlace stream after) : Sound after rest where
  placed := by
    rw [same.text, same.pos]
    exact sound.placed
  region := by
    rw [same.region, same.pos]
    exact sound.region
  broken := by
    rw [same.broken, same.region, same.pos]
    exact sound.broken
  first := by
    rw [same.regionFirst]
    exact sound.first.trans same.calls

/-- Moving on by a part of the text ahead, out of any region. -/
lemma advance {passed left : Text} (ahead : rest = passed ++ left) (text : after.text = stream.text)
    (pos : after.pos = stream.pos + byteLength passed) (region : after.region = none)
    (broken : after.broken = none) (first : after.regionFirst ≤ after.calls.length) :
    Sound after left where
  placed := by
    obtain ⟨consumed, whole, position⟩ := sound.placed
    refine ⟨consumed ++ passed, ?_, ?_⟩
    · rw [text, whole, ahead, append_assoc]
    · rw [byteLength_append, position, pos]
  region := by
    intro start found
    rw [region] at found
    cases found
  broken := by
    intro start found
    rw [broken] at found
    cases found
  first := first

/-- Entering a region behind a part of the text ahead. -/
lemma enter {passed left : Text} (ahead : rest = passed ++ left) (unbroken : stream.broken = none)
    (filled : left ≠ []) : Sound { stream with
      atStart := false
      pos := stream.pos + byteLength passed
      region := some (stream.pos + byteLength passed)
      regionFirst := stream.calls.length } left := by
  have outside : Sound { stream with
      pos := stream.pos + byteLength passed, region := none, regionFirst := stream.calls.length }
      left := sound.advance ahead rfl rfl rfl unbroken le_rfl
  refine ⟨outside.placed, fun start opened => ?_, fun start broke => ?_, le_rfl⟩
  · cases opened
    exact ⟨rfl, filled⟩
  · cases unbroken.symm.trans broke

lemma ahead : byteLength stream.text - stream.pos = byteLength rest := by
  obtain ⟨consumed, whole, pos⟩ := sound.placed
  rw [whole, byteLength_append, pos, Nat.add_sub_cancel_left]

lemma broken_eq_none (outside : stream.region = none) : stream.broken = none := by
  cases found : stream.broken with
  | none => rfl
  | some start =>
    have inside := (sound.broken start found).1
    rw [outside] at inside
    cases inside

end

end Sound

/-- A client that started with `args` has what the stream has recorded. -/
def Followed (args : List Text) (progress : Progress) : Prop :=
  receiveAll args progress.out = some (progress.stream.calls.map Sent.args)

/-! ## Prose -/

lemma prose_samePlace (text : Text) (progress : Progress) :
    SamePlace progress.stream (prose text progress).stream := by
  rw [prose]
  split_ifs <;> exact ⟨rfl, rfl, rfl, rfl, rfl, le_rfl⟩

lemma prose_calls (text : Text) (progress : Progress) :
    (prose text progress).stream.calls = progress.stream.calls := by
  rw [prose]
  split_ifs <;> rfl

variable {progress : Progress} {args : List Text}

lemma prose_followed (text : Text) (followed : Followed args progress) :
    Followed args (prose text progress) := by
  have same : receiveAll args (prose text progress).out = receiveAll args progress.out := by
    rw [prose]
    split_ifs
    · rfl
    · rfl
    · rw [receiveAll_pushText, receiveAll_pushText]
    · exact receiveAll_pushText _ _ _
  rw [Followed, same, prose_calls]
  exact followed

/-! ## Calls -/

/-- An update appends the new part of the arguments. -/
lemma updateSent_spec (sent : Sent) (call : PartialCall) : Checked True (fun result =>
        result.1.args = sent.args ++ result.2.getD [] ∧ result.1.id = sent.id.or call.id ∧
        result.1.name = sent.name ∧ result.1.done = call.done.or sent.done)
      (updateSent sent call) := by
  rw [updateSent]
  dsimp only
  split
  next longer =>
    rw [Bool.and_eq_true, isPrefixOf_iff_prefix] at longer
    obtain ⟨_, delta, whole⟩ := longer
    rw [← whole, splitAt_byteLength]
    exact ⟨rfl, rfl, rfl, rfl⟩
  next => exact ⟨(append_nil _).symm, rfl, rfl, rfl⟩

variable {i length : Nat}

lemma syncUpdate_spec (call : PartialCall) (lt : i < progress.stream.calls.length)
    (followed : Followed args progress) :
    Checked True (fun next => SamePlace progress.stream next.stream ∧
        next.stream.calls.length = progress.stream.calls.length ∧
        Followed args next)
      (syncUpdate i call progress) := by
  have found := List.getElem?_eq_getElem lt
  rw [syncUpdate, found]
  refine .bind (updateSent_spec _ call) ?_
  rintro ⟨updated, delta⟩ ⟨appended, _⟩
  dsimp only at appended ⊢
  have calls : (progress.stream.calls.set i updated).map Sent.args =
      (progress.stream.calls.map Sent.args).set i updated.args :=
    map_set
  cases delta with
  | some delta =>
    refine ⟨⟨rfl, rfl, rfl, rfl, rfl, by simp⟩, by simp, ?_⟩
    rw [Followed, receiveAll_append, followed]
    simp [receiveAll, receive, found, calls, appended]
  | none =>
    refine ⟨⟨rfl, rfl, rfl, rfl, rfl, by simp⟩, by simp, ?_⟩
    have unchanged : (progress.stream.calls.set i updated).map Sent.args =
        progress.stream.calls.map Sent.args := by
      apply map_set_of_eq found
      rw [appended, Option.getD_none, append_nil]
    rw [Followed, unchanged]
    exact followed

lemma startCall_followed (call : PartialCall) (followed : Followed args progress) : Followed args
      (startCall progress.stream.calls.length call progress) := by
  rw [Followed, startCall, receiveAll_append, followed]
  simp [receiveAll, receive]

variable {rest : Text}

lemma regionHasMistralIds_spec (sound : Sound stream rest) :
    Checked True (fun _ => True) (regionHasMistralIds stream) := by
  rw [regionHasMistralIds]
  cases open_ : stream.region with
  | none => trivial
  | some start =>
    obtain ⟨consumed, cut⟩ := sound.split
    dsimp only
    rw [(sound.region start open_).1, cut]
    dsimp only [bind, Except.bind]
    split <;> trivial

section
variable (format : Option ToolCallFormat) (calls : List PartialCall)

/-- The loop of `sync` from a call that has started or is the next one. -/
lemma syncFrom_spec (sound : Sound progress.stream rest)
    (reached : i ≤ progress.stream.calls.length) (followed : Followed args progress) :
    Checked True (fun next => SamePlace progress.stream next.stream ∧ Followed args next)
      (syncFrom format i calls progress) := by
  induction calls generalizing progress i with
  | nil => exact ⟨.refl _, followed⟩
  | cons call calls ih =>
    rw [syncFrom]
    split
    next atEnd =>
      split
      · exact ⟨.refl _, followed⟩
      · refine .bind (regionHasMistralIds_spec sound) ?_
        intro mistral _
        dsimp only
        split
        · exact ⟨.refl _, followed⟩
        · subst atEnd
          have grown : SamePlace progress.stream
              (startCall progress.stream.calls.length call progress).stream :=
            ⟨rfl, rfl, rfl, rfl, rfl, by simp [startCall]⟩
          refine .bind (syncUpdate_spec call (by simp [startCall])
            (startCall_followed call followed)) ?_
          rintro next ⟨same, length, nextFollowed⟩
          have placed := grown.trans same
          refine (ih (sound.of_samePlace placed)
            (by rw [length]; simp [startCall]) nextFollowed).imp ?_
          rintro last ⟨later, lastFollowed⟩
          exact ⟨placed.trans later, lastFollowed⟩
    next inside =>
      have strict := Nat.lt_of_le_of_ne reached inside
      refine .bind (syncUpdate_spec call strict followed) ?_
      rintro next ⟨same, length, nextFollowed⟩
      refine (ih (sound.of_samePlace same) (by rw [length]; exact strict) nextFollowed).imp ?_
      rintro last ⟨later, lastFollowed⟩
      exact ⟨same.trans later, lastFollowed⟩

lemma sync_spec (sound : Sound progress.stream rest) (followed : Followed args progress) :
    Checked True (fun next => SamePlace progress.stream next.stream ∧ Followed args next)
      (sync format calls progress) :=
  syncFrom_spec format calls sound sound.first followed

end

/-! ## Regions that break off -/

section Breaks
variable {grammar : Grammar} (named : ∀ marker ∈ grammar.markers, marker.text ≠ []) {region : Text}

lemma scanPrefix_spec (boundary : isCharBoundary region length = true) :
    Checked True (fun _ => True) (scanPrefix grammar region length) := by
  obtain ⟨front, back, rfl, rfl⟩ := isCharBoundary_iff.mp boundary
  rw [scanPrefix, splitAt_byteLength]
  trivial

/-- The bisection moves `good` up from boundary to boundary. -/
lemma bisect_spec {good bad : Nat} (ordered : good ≤ bad)
    (boundary : isCharBoundary region good = true) :
    Checked True (fun length => good ≤ length ∧ isCharBoundary region length = true)
      (bisect grammar region good bad) := by
  have next : ∀ bounds later : Nat × Nat, bounds.1 ≤ bounds.2 ∧ good ≤ bounds.1 ∧
        isCharBoundary region bounds.1 = true →
      bisectRound grammar region bounds = .next later →
      later.1 ≤ later.2 ∧ good ≤ later.1 ∧ isCharBoundary region later.1 = true := by
    rintro ⟨low, high⟩ later ⟨ordered, above, boundary⟩ step
    rw [bisectRound] at step
    split_ifs at step with crossed outside
    have upper := Nat.lt_of_not_le outside
    obtain ⟨lower, between⟩ := bisectMid_between upper
    split at step
    · cases step
    · cases step
      exact ⟨le_of_lt lower, above, boundary⟩
    · cases step
      exact ⟨le_of_lt upper, above.trans (le_of_lt lower), between⟩
  have stop : ∀ (bounds : Nat × Nat) (result : Except Fault Nat),
      bounds.1 ≤ bounds.2 ∧ good ≤ bounds.1 ∧ isCharBoundary region bounds.1 = true →
      bisectRound grammar region bounds = .stop result →
      Checked True (fun length => good ≤ length ∧ isCharBoundary region length = true) result := by
    rintro ⟨low, high⟩ result ⟨ordered, above, boundary⟩ step
    rw [bisectRound] at step
    split_ifs at step with crossed outside
    · exact absurd ordered (Nat.not_le_of_lt crossed)
    · cases step
      exact ⟨above, boundary⟩
    · have between := (bisectMid_between (Nat.lt_of_not_le outside)).2
      split at step
      next failed =>
        cases step
        exact (scanPrefix_spec between).of_eq_error failed
      next => cases step
      next => cases step
  exact Loop.run_rule _ next stop ⟨ordered, le_rfl, boundary⟩

lemma trimStart_suffix (text : Text) : ∃ indent, text = indent ++ trimStart text :=
  ⟨text.takeWhile isWhitespace, (takeWhile_append_dropWhile).symm⟩

lemma opensCalls_spec {marker : Marker} {offset : Nat}
    (boundary : isCharBoundary region offset = true) :
    Checked True (fun _ => True) (opensCalls grammar region marker offset) := by
  obtain ⟨front, back, rfl, rfl⟩ := isCharBoundary_iff.mp boundary
  rw [opensCalls, splitAt_byteLength]
  dsimp only [bind, Except.bind]
  split
  · trivial
  · split <;> trivial

lemma keepOpenings_spec {candidates : List (Marker × Nat)}
    (boundaries : ∀ candidate ∈ candidates, isCharBoundary region candidate.2 = true) :
    Checked True (fun kept => ∀ offset ∈ kept, ∃ candidate ∈ candidates, candidate.2 = offset)
      (keepOpenings grammar region candidates) := by
  induction candidates with
  | nil =>
    intro offset never
    cases never
  | cons candidate rest ih =>
    rw [keepOpenings]
    refine .bind (opensCalls_spec (boundaries _ mem_cons_self)) ?_
    intro opens _
    refine .bind (ih fun j mem => boundaries j (mem_cons_of_mem _ mem)) ?_
    intro later kept
    show ∀ offset ∈ (if opens then candidate.2 :: later else later), _
    intro offset mem
    have choice : offset = candidate.2 ∨ offset ∈ later := by
      split at mem
      · exact mem_cons.mp mem
      · exact .inr mem
    rcases choice with rfl | inLater
    · exact ⟨candidate, mem_cons_self, rfl⟩
    · obtain ⟨j, among, same⟩ := kept offset inLater
      exact ⟨j, mem_cons_of_mem _ among, same⟩

lemma markersAfter_spec {front tail : Text} {candidate : Marker × Nat}
    (mem : candidate ∈ markersAfter grammar tail (byteLength front)) :
    byteLength front ≤ candidate.2 ∧ isCharBoundary (front ++ tail) candidate.2 = true := by
  obtain ⟨marker, _, inside⟩ := mem_flatMap.mp mem
  obtain ⟨offset, found, rfl⟩ := mem_map.mp inside
  obtain ⟨before, after, rfl, _, rfl⟩ := mem_matchIndices _ found
  refine ⟨Nat.le_add_right _ _, ?_⟩
  rw [← append_assoc]
  have total : byteLength front + width Char.utf8Size before =
      byteLength (front ++ before) := (byteLength_append _ _).symm
  rw [total]
  exact isCharBoundary_append _ _

/-- The end of a broken region is a boundary behind its start. -/
lemma brokenEnd_spec {start : Nat} (finished : Bool) (pos : 0 < start)
    (boundary : isCharBoundary region start = true) :
    Checked True (fun result => ∀ ending, result = some ending →
        0 < ending ∧ isCharBoundary region ending = true)
      (brokenEnd grammar region start finished) := by
  obtain ⟨front, tail, rfl, rfl⟩ := isCharBoundary_iff.mp boundary
  rw [brokenEnd]
  refine .bind_ok (splitAt_byteLength front tail) ?_
  refine .bind (keepOpenings_spec fun candidate mem => (markersAfter_spec mem).2) ?_
  intro kept among
  dsimp only
  generalize closing : ((opening grammar (front ++ tail)).map fun found =>
    found.1.close).getD [] = close
  -- both candidates for the end lie behind the break
  have next : ∀ offset, kept.min? = some offset →
      0 < offset ∧ isCharBoundary (front ++ tail) offset = true := by
    intro offset least
    obtain ⟨candidate, mem, rfl⟩ := among offset (List.min?_mem least)
    obtain ⟨behind, between⟩ := markersAfter_spec mem
    exact ⟨lt_of_lt_of_le pos behind, between⟩
  have closed : ∀ offset length, (cutFirst close tail).map (fun cut =>
        (byteLength front + byteLength cut.before, byteLength cut.marker)) = some (offset, length) →
      0 < offset + length ∧ isCharBoundary (front ++ tail) (offset + length) = true := by
    intro offset length found
    obtain ⟨cut, search, same⟩ := Option.map_eq_some_iff.mp found
    cases same
    refine ⟨by omega, ?_⟩
    rw [cutFirst_rebuild search, ← byteLength_append, ← byteLength_append]
    simp only [← append_assoc]
    exact isCharBoundary_append _ _
  split
  next offset at_ length least found =>
    intro ending same
    cases same
    split
    · exact next offset least
    · exact closed at_ length found
  next offset least none =>
    intro ending same
    cases same
    exact next offset least
  next at_ length none found =>
    intro ending same
    cases same
    exact closed at_ length found
  next =>
    intro ending same
    have whole := isCharBoundary_byteLength (front ++ tail)
    split at same
    · cases same
      refine ⟨?_, whole⟩
      rw [byteLength_append]
      omega
    · cases same

include named

/-- The end of the opening marker is a boundary behind the start. -/
lemma opening_spec {marker : Marker} (found : opening grammar region = some (marker, length)) :
    0 < length ∧ length ≤ byteLength region ∧ isCharBoundary region length = true := by
  obtain ⟨candidate, mem, here⟩ := mem_filterMap.mp (maxByKey?_mem found)
  have split : ∃ indent, region = indent ++
      (if candidate.leading then trimStart region else region) := by
    split
    · exact trimStart_suffix region
    · exact ⟨[], rfl⟩
  obtain ⟨indent, whole⟩ := split
  dsimp only at here
  generalize (if candidate.leading then trimStart region else region) = tail at whole here
  subst whole
  rw [byteLength_append, Nat.add_sub_cancel] at here
  split at here
  next starts =>
    rw [ isPrefixOf_iff_prefix] at starts
    obtain ⟨after, rfl⟩ := starts
    cases here
    have pos := byteLength_pos (named marker mem)
    refine ⟨by omega, by simp only [byteLength_append]; omega, ?_⟩
    rw [← byteLength_append, ← append_assoc]
    exact isCharBoundary_append _ _
  next => cases here

lemma callsBeforeBreak_spec (filled : region ≠ []) : Checked True (fun result =>
        0 < result.2 ∧ isCharBoundary region result.2 = true)
      (callsBeforeBreak grammar region) := by
  have whole := And.intro (byteLength_pos filled) (isCharBoundary_byteLength region)
  rw [callsBeforeBreak]
  split
  · exact whole
  · exact whole
  · split
    · exact whole
    next marker marked found =>
      obtain ⟨pos, inside, boundary⟩ := opening_spec named found
      refine .bind (bisect_spec inside boundary) ?_
      rintro good ⟨above, between⟩
      refine .bind (scanPrefix_spec between) ?_
      intro scan _
      cases scan <;> exact ⟨lt_of_lt_of_le pos above, between⟩

end Breaks

end Joshua
