/-
Module: Joshua.Proofs.ToolStreamSafety
Purpose: Draining a tool-call stream ends, no slice or index of it faults, and
  a client can follow its events through a whole generation.
Trusted boundary: none
-/
import Joshua.Proofs.ToolStreamPlace

namespace Joshua
open Joshua.Foundation List
open ToolStream (start)

/-! ## Draining -/

variable {rest : Text} {grammar : Grammar}

section Drain
variable (scans : grammar.ScansInside) (named : ∀ marker ∈ grammar.markers, marker.text ≠ [])
  (format : Option ToolCallFormat) (finished : Bool)

lemma findMarker_hold {atStart : Bool} {keep : Nat}
    (held_ : findMarker grammar atStart rest finished = .hold keep) :
    ∃ passed left, rest = passed ++ left ∧ byteLength left = keep := by
  rw [findMarker] at held_
  split at held_
  · cases held_
  · split at held_
    · cases held_
      exact ⟨[], rest, rfl, rfl⟩
    · split at held_
      · cases held_
      · split at held_
        · cases held_
          exact ⟨rest, [], (append_nil _).symm, rfl⟩
        · cases held_
          exact ⟨settled grammar.anywhere rest, held grammar.anywhere rest,
            (settled_append_held _ _).symm, (partialSuffixBytes_eq_held _ _).symm⟩

include named in
lemma findMarker_marker {atStart : Bool} {offset : Nat}
    (found : findMarker grammar atStart rest finished = .marker offset) :
    ∃ passed left, rest = passed ++ left ∧ byteLength passed = offset ∧ left ≠ [] := by
  rw [findMarker] at found
  split at found
  next leading =>
    cases found
    refine ⟨[], rest, rfl, rfl, ?_⟩
    rw [Bool.and_eq_true, any_eq_true] at leading
    obtain ⟨_, text, mem, starts⟩ := leading
    obtain ⟨marker, among, rfl⟩ := List.mem_map.mp mem
    rintro rfl
    exact named marker (mem_filter.mp among).1 (prefix_nil.mp ( isPrefixOf_iff_prefix.mp starts))
  next =>
    split at found
    · cases found
    · split at found
      next cut search =>
        cases found
        refine ⟨cut.before, cut.marker ++ cut.after, cutFirst_rebuild search, rfl, ?_⟩
        obtain ⟨marker, among, same⟩ := List.mem_map.mp (cutFirst_marker_mem search)
        rw [← same]
        exact append_ne_nil_of_left_ne_nil (named marker (mem_filter.mp among).1) _
      next => split at found <;> cases found

/-- Text ahead counts three times, so that a region can be entered and given
up before any of it is consumed. -/
def drainMeasure (stream : ToolStream) : Nat :=
  3 * (byteLength stream.text - stream.pos) +
    match stream.region, stream.broken with
    | none, _ => 2
    | some _, none => 1
    | some _, some _ => 0

/-- What a step leaves: a sound stream that a client can follow, and progress
when the loop goes on. -/
def Stepped (args : List Text) (stream : ToolStream) (rest : Text) (step : Step) : Prop :=
  Followed args step.progress ∧ ∃ left, Sound step.progress.stream left ∧
      byteLength left ≤ byteLength rest ∧
      (step.again = true → drainMeasure step.progress.stream < drainMeasure stream)

variable {args : List Text} {progress : Progress}
include named in
lemma seekStep_spec (sound : Sound progress.stream rest) (outside : progress.stream.region = none)
    (followed : Followed args progress) :
    Checked True (Stepped args progress.stream rest) (seekStep grammar finished progress) := by
  obtain ⟨consumed, cut⟩ := sound.split
  have unbroken := sound.broken_eq_none outside
  rw [seekStep]
  dsimp only
  refine .bind_ok cut ?_
  dsimp only
  split
  next offset found =>
    obtain ⟨passed, left, rfl, rfl, filled⟩ := findMarker_marker named finished found
    rw [splitAt_byteLength]
    have same := prose_samePlace passed progress
    have entered := (sound.of_samePlace same).enter rfl (same.broken.trans unbroken) filled
    refine ⟨prose_followed passed followed, left, entered, ?_, ?_⟩
    · rw [byteLength_append]
      exact Nat.le_add_left _ _
    · intro _
      rw [drainMeasure, drainMeasure, entered.ahead, sound.ahead, outside, byteLength_append]
      simp only [same.broken, unbroken]
      omega
  next keep held_ =>
    obtain ⟨passed, left, rfl, rfl⟩ := findMarker_hold finished held_
    have ready : u64Sub (byteLength (passed ++ left)) (byteLength left) =
        .ok (byteLength passed) := by
      rw [byteLength_append, u64Sub_of_le (Nat.le_add_left _ _), Nat.add_sub_cancel]
    refine .bind_ok ready ?_
    rw [splitAt_byteLength]
    have same := prose_samePlace passed progress
    refine ⟨prose_followed passed followed, left, ?_, ?_, nofun⟩
    · exact sound.advance rfl same.text (by rw [same.pos])
        (same.region.trans outside) (same.broken.trans unbroken)
        (sound.of_samePlace same).first
    · rw [byteLength_append]
      exact Nat.le_add_left _ _

variable {length start : Nat}

section
variable (sound : Sound progress.stream rest)
include sound

/-- Leaving a region behind a part of it that is not empty. -/
lemma stepped_leave {step : Step} (positive : 0 < length)
    (boundary : isCharBoundary rest length = true)
    (text : step.progress.stream.text = progress.stream.text)
    (pos : step.progress.stream.pos = progress.stream.pos + length)
    (region : step.progress.stream.region = none) (broken : step.progress.stream.broken = none)
    (first : step.progress.stream.regionFirst ≤ step.progress.stream.calls.length)
    (followed : Followed args step.progress) : Stepped args progress.stream rest step := by
  obtain ⟨passed, left, rfl, rfl⟩ := isCharBoundary_iff.mp boundary
  have moved : Sound step.progress.stream left := sound.advance rfl text pos region broken first
  refine ⟨followed, left, moved, ?_, ?_⟩
  · rw [byteLength_append]
    exact Nat.le_add_left _ _
  · intro _
    rw [drainMeasure, drainMeasure, moved.ahead, sound.ahead, region, byteLength_append]
    dsimp only
    omega

lemma brokenStep_spec (broke : progress.stream.broken = some start)
    (followed : Followed args progress) :
    Checked True (Stepped args progress.stream rest)
      (brokenStep grammar finished rest progress.stream.pos start progress) := by
  obtain ⟨_, pos, boundary⟩ := sound.broken start broke
  rw [brokenStep]
  refine .bind (brokenEnd_spec finished pos boundary) ?_
  intro result ends
  cases result with
  | none => exact ⟨followed, rest, sound, le_rfl, nofun⟩
  | some ending =>
    obtain ⟨behind, between⟩ := ends ending rfl
    exact stepped_leave sound behind between rfl rfl rfl rfl sound.first followed

/-- A break inside an open region. -/
lemma stepped_breakOff (opened : progress.stream.region = some start)
    (unbroken : progress.stream.broken = none) {next : Progress}
    (same : SamePlace progress.stream next.stream) (followed : Followed args next)
    (pos : 0 < length) (boundary : isCharBoundary rest length = true) :
    Stepped args progress.stream rest ⟨true, breakOff length next⟩ := by
  obtain ⟨place, filled⟩ := sound.region start opened
  have nextSound := sound.of_samePlace same
  have nextOpened := same.region.trans opened
  refine ⟨followed, rest, ?_, le_rfl, ?_⟩
  · refine { nextSound with broken := ?_ }
    intro j broke
    cases broke
    refine ⟨?_, pos, boundary⟩
    show next.stream.region = some next.stream.pos
    rw [nextOpened, place, same.pos]
  · intro _
    simp only [drainMeasure, breakOff, nextOpened, opened, unbroken, same.text, same.pos]
    omega

lemma release_spec {next : Progress} (same : SamePlace progress.stream next.stream)
    (filled : rest ≠ []) (unbroken : progress.stream.broken = none)
    (boundary : isCharBoundary rest length = true) (followed : Followed args next) :
    Checked True
      (fun last => Stepped args progress.stream rest ⟨true, last⟩)
      (release rest progress.stream.pos length next) := by
  obtain ⟨letter, tail, rfl⟩ := List.exists_cons_of_ne_nil filled
  -- both lengths that are compared are boundaries inside the region
  have first : isCharBoundary (letter :: tail) letter.utf8Size = true :=
    isCharBoundary_append [letter] tail
  have inside : ∀ {offset}, isCharBoundary (letter :: tail) offset = true →
      offset ≤ byteLength (letter :: tail) := by
    intro offset between
    obtain ⟨front, back, whole, rfl⟩ := isCharBoundary_iff.mp between
    rw [whole, byteLength_append]
    exact Nat.le_add_right _ _
  have wanted : isCharBoundary (letter :: tail)
      (min (max length letter.utf8Size) (byteLength (letter :: tail))) = true := by
    rw [min_eq_left (Nat.max_le.mpr ⟨inside boundary, inside first⟩)]
    rcases le_total length letter.utf8Size with less | more
    · rw [max_eq_right less]
      exact first
    · rw [max_eq_left more]
      exact boundary
  have pos : 0 < min (max length letter.utf8Size) (byteLength (letter :: tail)) := by
    have size := Char.utf8Size_pos letter
    have whole := inside first
    omega
  rw [release, List.head?_cons, Option.map_some, Option.getD_some]
  rw [boundaryAbove_eq_self Char.utf8Size_pos wanted]
  generalize
    min (max length letter.utf8Size) (byteLength (letter :: tail)) = cut
    at wanted pos
  obtain ⟨front, back, whole, size⟩ := isCharBoundary_iff.mp wanted
  rw [splitAt_eq_ok.mpr ⟨whole, size⟩]
  have spoken := same.trans (prose_samePlace front next)
  exact stepped_leave sound pos wanted spoken.text rfl rfl
    (spoken.broken.trans unbroken) (sound.of_samePlace spoken).first
    (prose_followed front followed)

end

section
variable (sound : Sound progress.stream rest) (opened : progress.stream.region = some start)
  (unbroken : progress.stream.broken = none)
include sound opened unbroken

include named in
lemma textStep_spec (boundary : isCharBoundary rest length = true)
    (followed : Followed args progress) : Checked True (Stepped args progress.stream rest)
      (textStep grammar format rest progress.stream.pos length progress) := by
  have filled := (sound.region start opened).2
  rw [textStep]
  refine .bind (callsBeforeBreak_spec named filled) ?_
  rintro ⟨calls, good⟩ ⟨pos, between⟩
  refine .bind (sync_spec format calls sound followed) ?_
  rintro synced ⟨same, syncedFollowed⟩
  split
  · exact stepped_breakOff sound opened unbroken same syncedFollowed pos between
  · refine .bind (release_spec sound same filled unbroken boundary syncedFollowed) ?_
    intro last stepped
    exact stepped

lemma callsStep_spec (calls : List PartialCall) {ending : Option Nat}
    (boundary : ∀ length, ending = some length → isCharBoundary rest length = true)
    (followed : Followed args progress) : Checked True (Stepped args progress.stream rest)
      (callsStep format finished rest progress.stream.pos calls ending progress) := by
  have filled := (sound.region start opened).2
  have whole := isCharBoundary_byteLength rest
  rw [callsStep]
  refine .bind (.u64Sub sound.first) ?_
  rintro begun -
  refine .bind (sync_spec format calls sound followed) ?_
  rintro synced ⟨same, syncedFollowed⟩
  have syncedSound := sound.of_samePlace same
  dsimp only
  have read : ∀ length, (ending.filter fun length => 0 < length) =
      some length → 0 < length ∧ isCharBoundary rest length = true := by
    intro length found
    obtain ⟨given, positive⟩ := Option.filter_eq_some_iff.mp found
    exact ⟨by simpa using positive, boundary length given⟩
  split
  · -- a call that had begun is no longer there
    cases found : ending.filter fun length => 0 < length with
    | none =>
      exact stepped_breakOff sound opened unbroken same syncedFollowed (byteLength_pos filled) whole
    | some length =>
      obtain ⟨positive, between⟩ := read length found
      exact stepped_breakOff sound opened unbroken same syncedFollowed positive between
  · split
    next length found =>
      obtain ⟨positive, between⟩ := read length found
      exact stepped_leave sound positive between same.text rfl rfl
        (same.broken.trans unbroken) syncedSound.first syncedFollowed
    next =>
      split
      · have atEnd : byteLength synced.stream.text = progress.stream.pos + byteLength rest := by
          obtain ⟨consumed, text, pos⟩ := sound.placed
          rw [same.text, text, byteLength_append, pos]
        exact stepped_leave sound (byteLength_pos filled) whole same.text
          atEnd rfl (same.broken.trans unbroken) syncedSound.first
          syncedFollowed
      · exact ⟨syncedFollowed, rest, syncedSound, le_rfl, nofun⟩

end

include scans named in
/-- One round of `drain`. -/
lemma drainStep_spec (sound : Sound progress.stream rest) (followed : Followed args progress) :
    Checked True (Stepped args progress.stream rest)
      (drainStep grammar format finished progress) := by
  rw [drainStep]
  cases opened : progress.stream.region with
  | none => exact seekStep_spec named finished sound opened followed
  | some start =>
    obtain ⟨consumed, cut⟩ := sound.split
    obtain ⟨rfl, filled⟩ := sound.region start opened
    dsimp only
    refine .bind_ok cut ?_
    dsimp only
    cases broke : progress.stream.broken with
    | some from_ => exact brokenStep_spec finished sound broke followed
    | none =>
      dsimp only
      split
      next =>
        split
        · exact textStep_spec named format sound opened broke
            (isCharBoundary_byteLength rest) followed
        · exact ⟨followed, rest, sound, le_rfl, nofun⟩
      next length scanned =>
        exact textStep_spec named format sound opened broke
          (scans.text rest finished length filled scanned) followed
      next calls ending scanned =>
        refine callsStep_spec format finished sound opened broke calls ?_ followed
        rintro length rfl
        exact scans.ending rest finished calls length filled scanned

/-- What the loop keeps, over all its rounds before `rest`. -/
def Drained (args : List Text) (rest : Text) (progress : Progress) : Prop :=
  Followed args progress ∧ ∃ left, Sound progress.stream left ∧ byteLength left ≤ byteLength rest

/-- The loop, from what a round leaves: something smaller to go on with, or
what is asked for. -/
lemma drain_rule (holds : Nat → Progress → Prop) {post : Progress → Prop}
    (round : ∀ bound cur, holds bound cur → Checked True (fun step =>
        if step.again then ∃ less < bound, holds less step.progress else post step.progress)
      (drainStep grammar format finished cur))
    {rounds bound : Nat} (enough : bound < rounds) (initial : holds bound progress) :
    Checked True post (drain grammar format finished rounds progress) := by
  rw [drain]
  induction rounds generalizing bound progress with
  | zero => exact absurd enough (Nat.not_lt_zero _)
  | succ rounds ih =>
    obtain ⟨step, returned, goes⟩ := (round bound progress initial).exists_of_safe trivial
    rw [loop, drainRound, returned]
    dsimp only
    cases again : step.again with
    | true =>
      rw [if_pos again] at goes
      obtain ⟨less, lower, later⟩ := goes
      exact ih (lt_of_lt_of_le lower (Nat.le_of_lt_succ enough)) later
    | false =>
      rw [again] at goes
      exact goes

include scans named in
/-- The whole loop. -/
lemma drain_spec (sound : Sound progress.stream rest) (followed : Followed args progress)
    {rounds : Nat} (enough : 3 * byteLength rest + 2 < rounds) :
    Checked True (Drained args rest) (drain grammar format finished rounds progress) := by
  have few : drainMeasure progress.stream < rounds := by
    refine lt_of_le_of_lt ?_ enough
    rw [drainMeasure, sound.ahead]
    split <;> omega
  refine drain_rule format finished
    (fun bound cur => drainMeasure cur.stream = bound ∧ Drained args rest cur) ?_ few
    ⟨rfl, followed, rest, sound, le_rfl⟩
  rintro _ cur ⟨rfl, currentFollowed, left, currentSound, less⟩
  refine (drainStep_spec scans named format finished currentSound currentFollowed).imp ?_
  rintro step ⟨stepFollowed, later, laterSound, fewer, lower⟩
  have drained : Drained args rest step.progress :=
    ⟨stepFollowed, later, laterSound, fewer.trans less⟩
  split
  next again => exact ⟨_, lower again, rfl, drained⟩
  next => exact drained

end Drain

/-! ## Whole generations -/

variable {stream : ToolStream}

/-- The text consumed is dropped and the place in the rest is kept. -/
lemma compact_spec (sound : Sound stream rest) : Checked True (fun last => last = { stream with
          text := rest, pos := 0, region := stream.region.map fun _ => 0 } ∧
        Sound last rest)
      (compact stream) := by
  obtain ⟨consumed, whole, position⟩ := sound.placed
  have place : stream.region.getD stream.pos = stream.pos := by
    cases opened : stream.region with
    | none => rfl
    | some start => exact (sound.region start opened).1
  have moved : Sound { stream with
      text := rest, pos := 0, region := stream.region.map fun _ => 0 }
      rest := by
    constructor
    case placed => exact ⟨[], rfl, rfl⟩
    case region =>
      intro start found
      obtain ⟨before, opened, rfl⟩ := Option.map_eq_some_iff.mp found
      exact ⟨rfl, (sound.region before opened).2⟩
    case broken =>
      intro start broke
      obtain ⟨opened, inside⟩ := sound.broken start broke
      exact ⟨by simp only [opened, Option.map_some], inside⟩
    case first => exact sound.first
  rw [compact]
  dsimp only
  rw [place, whole, ← position]
  refine .bind_ok (splitAt_byteLength consumed rest) ?_
  refine .bind_ok (u64Sub_of_le le_rfl) ?_
  rw [Nat.sub_self]
  cases opened : stream.region with
  | none =>
    rw [opened] at moved
    exact ⟨rfl, moved⟩
  | some start =>
    rw [opened] at moved
    rw [(sound.region start opened).1, ← position]
    dsimp only
    rw [u64Sub_of_le le_rfl, Nat.sub_self]
    exact ⟨rfl, moved⟩

/-- More text behind the stream. -/
lemma Sound.grow (sound : Sound stream rest) (delta : Text) :
    Sound { stream with text := stream.text ++ delta } (rest ++ delta) where
  placed := by
    obtain ⟨consumed, whole, pos⟩ := sound.placed
    exact ⟨consumed, by simp only [whole, List.append_assoc], pos⟩
  region := by
    intro start opened
    obtain ⟨place, filled⟩ := sound.region start opened
    exact ⟨place, append_ne_nil_of_left_ne_nil filled _⟩
  broken := by
    intro start broke
    obtain ⟨opened, positive, boundary⟩ := sound.broken start broke
    exact ⟨opened, positive, isCharBoundary_extend delta boundary⟩
  first := sound.first

lemma Sound.start : Sound start [] where
  placed := ⟨[], rfl, rfl⟩
  region := nofun
  broken := nofun
  first := le_rfl

section Feed
variable (scans : grammar.ScansInside) (named : ∀ marker ∈ grammar.markers, marker.text ≠ [])
  (format : Option ToolCallFormat) {rounds : Nat}
include scans named

section
variable (sound : Sound stream stream.text)
include sound

lemma push_spec (delta : Text) (enough : 3 * byteLength (stream.text ++ delta) + 3 ≤ rounds) :
    Checked True (fun result => Sound result.1 result.1.text ∧
        byteLength result.1.text ≤ byteLength (stream.text ++ delta) ∧
        receiveAll (stream.calls.map Sent.args) result.2 = some (result.1.calls.map Sent.args))
      (push (some grammar) format rounds stream delta) := by
  have untold : Followed (stream.calls.map Sent.args)
      ⟨{ stream with text := stream.text ++ delta }, []⟩ := rfl
  rw [push]
  refine .bind (drain_spec scans named format false (sound.grow delta) untold enough) ?_
  rintro drained ⟨followed, left, drainedSound, less⟩
  refine .bind (compact_spec drainedSound) ?_
  rintro last ⟨rfl, lastSound⟩
  exact ⟨lastSound, less, followed⟩

lemma finish_spec (enough : 3 * byteLength stream.text + 3 ≤ rounds) : Checked True (fun result =>
        receiveAll (stream.calls.map Sent.args) result.2 = some (result.1.calls.map Sent.args))
      (finish (some grammar) format rounds stream) := by
  have untold : Followed (stream.calls.map Sent.args) ⟨stream, []⟩ := rfl
  rw [finish]
  refine .bind (drain_spec scans named format true sound untold enough) ?_
  rintro drained ⟨followed, left, drainedSound, _⟩
  refine .bind (compact_spec drainedSound) ?_
  rintro last ⟨rfl, _⟩
  have flushed : receiveAll (stream.calls.map Sent.args) (if drained.stream.calls.isEmpty then
        pushText drained.out drained.stream.heldWhitespace else drained.out) =
        receiveAll (stream.calls.map Sent.args) drained.out := by
    split
    · exact receiveAll_pushText _ _ _
    · rfl
  exact flushed.trans followed

lemma pushAll_spec (pieces : List Text)
    (enough : 3 * byteLength (stream.text ++ pieces.flatten) + 3 ≤ rounds) :
    Checked True (fun result => Sound result.1 result.1.text ∧
        byteLength result.1.text ≤ byteLength (stream.text ++ pieces.flatten) ∧
        receiveAll (stream.calls.map Sent.args) result.2 = some (result.1.calls.map Sent.args))
      (pushAll (some grammar) format rounds stream pieces) := by
  induction pieces generalizing stream with
  | nil => exact ⟨sound, by simp, rfl⟩
  | cons piece rest ih =>
    simp only [flatten_cons, byteLength_append] at enough
    rw [pushAll]
    refine .bind (push_spec scans named format sound piece (by rw [byteLength_append]; omega)) ?_
    rintro ⟨next, first⟩ ⟨nextSound, less, received⟩
    dsimp only at nextSound less received ⊢
    rw [byteLength_append] at less
    refine .bind (ih nextSound (by rw [byteLength_append]; omega)) ?_
    rintro ⟨last, later⟩ ⟨lastSound, fewer, receivedLater⟩
    dsimp only at lastSound fewer receivedLater
    refine ⟨lastSound, ?_, ?_⟩
    · simp only [byteLength_append, flatten_cons] at fewer ⊢
      omega
    · show receiveAll _ (first ++ later) = _
      rw [receiveAll_append, received]
      exact receivedLater

end

/-- A generation in any pieces ends without a fault, and before and after its
end the events tell a client exactly the calls the stream has recorded. -/
theorem feed_safe (pieces : List Text) (enough : 3 * byteLength pieces.flatten + 3 ≤ rounds) :
    ∃ stream sent last events, pushAll (some grammar) format rounds start pieces =
          .ok (stream, sent) ∧
        Told stream sent ∧
        feed (some grammar) format rounds pieces = .ok (last, events) ∧
        Told last events := by
  obtain ⟨⟨stream, sent⟩, pushed, sound, less, received⟩ :=
    (pushAll_spec scans named format Sound.start pieces enough).exists_of_safe trivial
  dsimp only [start, nil_append] at sound less
  have told : receiveAll [] sent = some (stream.calls.map Sent.args) := received
  have room : 3 * byteLength stream.text + 3 ≤ rounds := by omega
  obtain ⟨⟨last, flushed⟩, finished, receivedLater⟩ :=
    (finish_spec scans named format sound room).exists_of_safe trivial
  dsimp only at receivedLater
  refine ⟨stream, sent, last, sent ++ flushed, pushed, receiveAll_told told, ?_, receiveAll_told ?_⟩
  · rw [feed, pushed]
    dsimp only [bind, Except.bind]
    rw [finished]
    rfl
  · rw [receiveAll_append, told]
    exact receivedLater

end Feed

/-! A grammar with an empty marker meets the condition on its scans, but a
region can then be opened and given up without any text, for ever. -/

def emptyMarker : Grammar where
  markers := [⟨[], false, []⟩]
  scan := fun _ _ => .text 0

theorem push_emptyMarker_spins : emptyMarker.ScansInside ∧ ∀ format rounds,
      push (some emptyMarker) format rounds start [] = .error .spin := by
  refine ⟨⟨?_, nofun⟩, ?_⟩
  · intro region finished length _ scanned
    cases scanned
    exact isCharBoundary_append [] region
  · intro format rounds
    let outside : Progress := ⟨{ start with atStart := false }, []⟩
    let inside : Progress := ⟨{ start with atStart := false, region := some 0 }, []⟩
    have enter : drainRound emptyMarker format false outside = .next inside := rfl
    have leave : drainRound emptyMarker format false inside = .next outside := rfl
    have turns : ∀ fuel, loop (drainRound emptyMarker format false) fuel outside = none ∧
          loop (drainRound emptyMarker format false) fuel inside = none := by
      intro fuel
      induction fuel with
      | zero => exact ⟨rfl, rfl⟩
      | succ fuel ih =>
        simp only [loop, enter, leave]
        exact ⟨ih.2, ih.1⟩
    have first : drainRound emptyMarker format false ⟨start, []⟩ = .next inside := rfl
    have never : loop (drainRound emptyMarker format false) rounds ⟨start, []⟩ = none := by
      cases rounds with
      | zero => rfl
      | succ rounds =>
        simp only [loop, first]
        exact (turns rounds).2
    have spins : drain emptyMarker format false rounds ⟨start, []⟩ = .error .spin := by
      rw [drain, never]
      rfl
    show (drain emptyMarker format false rounds ⟨start, []⟩).bind _ = _
    rw [spins]
    rfl

/-- A grammar whose calls run to the end of the output. -/
def openEnded : Grammar where
  markers := [⟨['<'], false, []⟩]
  scan := fun region finished =>
    .calls [⟨none, ['f'], region, none⟩] (if finished then some (byteLength region) else none)

theorem feed_safe_of_openEnded : openEnded.ScansInside ∧ ∃ stream sent last events,
      pushAll (some openEnded) none 15 start [['a', '<'], ['b', 'c']] = .ok (stream, sent) ∧
        Told stream sent ∧
        feed (some openEnded) none 15 [['a', '<'], ['b', 'c']] = .ok (last, events) ∧
        Told last events := by
  have scans : openEnded.ScansInside := by
    constructor
    · intro region finished length _ scanned
      cases scanned
    · intro region finished calls length _ scanned
      have same : byteLength region = length := by
        cases finished <;> cases scanned
        rfl
      rw [← same]
      exact isCharBoundary_byteLength region
  refine ⟨scans, feed_safe scans ?_ none [['a', '<'], ['b', 'c']] (by decide)⟩
  intro marker member
  rw [mem_singleton.mp member]
  exact cons_ne_nil _ _

end Joshua
