/-
Module: Joshua.Proofs.ToolSectionScan
Purpose: A section of calls read again from its start as it grows: with a
  reader of single calls whose decisions are final, and tags of which none
  contains another, the section's reading is steady.
Trusted boundary: none
-/
import Joshua.Proofs.ToolArgs
import Joshua.Proofs.ToolReader

namespace Joshua
open Joshua.Foundation List

/-! ## What is asked of a reader of calls and of the tags -/

/-- A later reading of a call: the same id and name, final arguments kept. -/
structure Kept (before after : PartialCall) : Prop where
  id : after.id = before.id
  name : after.name = before.name
  done : ∀ args, before.done = some args → after.done = some args

/-- A reader of single calls whose decisions are final. -/
structure CallReader (read : Text → Bool → CallRead) : Prop where
  refused : ∀ text, read text false = .refused →
    ∀ tail finished, read (text ++ tail) finished = .refused
  closed : ∀ text found rest, read text false = .call found (some rest) → ∀ tail finished,
      read (text ++ tail) finished = .call found (some (rest ++ tail))
  opened : ∀ text found, read text false = .call found none → ∀ tail finished, ∃ later rest,
      read (text ++ tail) finished = .call later rest ∧ Kept found later
  named : ∀ text finished found rest, read text finished = .call found rest → found.name ≠ []
  final : ∀ text finished found rest, read text finished = .call found rest →
    finished = true ∨ rest ≠ none → found.done ≠ none
  leaves : ∀ text finished found rest, read text finished = .call found (some rest) → rest <:+ text

/-- Tags of which none contains another, and markers that start with an angle
bracket. -/
structure SectionTags (opens call closes : List Text) : Prop where
  markers : Apart (opens ++ call)
  tags : Apart (call ++ closes)
  named : ∀ tag ∈ opens ++ (call ++ closes), tag ≠ []
  angled : ∀ tag ∈ opens ++ call, tag.head? = some '<'
  some_call : call ≠ []

/-- A text that starts with one tag does not come to start with another. -/
lemma find?_none_of_other {first second : List Text} {text other : Text}
    (apart : Apart (first ++ second)) (among : other ∈ second)
    (missing : (first.find? fun tag => tag.isPrefixOf text) = none) (starts : other <+: text)
    (tail : Text) : (first.find? fun tag => tag.isPrefixOf (text ++ tail)) = none := by
  rw [find?_isPrefix_none]
  intro tag mem begins
  have tagMember := mem_append_left second mem
  have otherMember := mem_append_right first among
  have same : tag = other := by
    rcases prefix_or_prefix_of_prefix begins (starts.trans (prefix_append _ _)) with inner | outer
    · exact apart other otherMember tag tagMember inner.isInfix
    · exact (apart tag tagMember other otherMember outer.isInfix).symm
  subst same
  exact find?_isPrefix_none.mp missing tag mem starts

variable {calls : List PartialCall}

section Section
variable {opens call closes : List Text} {read : Text → Bool → CallRead} (reader : CallReader read)
  (tags : SectionTags opens call closes) {region tail : Text} {finished : Bool}

/-! ## What a round can do -/

/-- The rounds of a section at `tail`, with `calls` read before. -/
inductive SectionStep (opens call : List Text) (region tail : Text)
    (calls : List PartialCall) (finished : Bool) :
    Round (Text × List PartialCall) Scan → Prop
  | skip {rest : Text} (suffix : rest <:+ tail)
      (shorter : rest.length < tail.length) (begun : calls ≠ []) :
      SectionStep opens call region tail calls finished (.next (rest, calls))
  | read {found : PartialCall} {rest : Text} (suffix : rest <:+ tail)
      (shorter : rest.length < tail.length) (named : found.name ≠ [])
      (final : found.done ≠ none) :
      SectionStep opens call region tail calls finished (.next (rest, calls ++ [found]))
  | last {found : PartialCall} (named : found.name ≠ [])
      (final : finished = true → found.done ≠ none) :
      SectionStep opens call region tail calls finished (.stop (.calls (calls ++ [found]) none))
  | wait (going : finished = false) (unread : calls = []) :
      SectionStep opens call region tail calls finished (.stop .pending)
  | more : SectionStep opens call region tail calls finished (.stop (.calls calls none))
  | close {rest : Text} (suffix : rest <:+ tail)
      (behind : rest.length < tail.length ∨ calls ≠ []) :
      SectionStep opens call region tail calls finished
        (.stop (.calls calls (some (offsetOf region rest))))
  | ended (isOver : finished = true) : SectionStep opens call region tail calls finished
        (.stop (.calls calls (some (byteLength region))))
  | text (unread : calls = []) : SectionStep opens call region tail calls finished
        (.stop (.text (sectionMarker opens call region)))

variable {body rest tail text : Text}

lemma refusedRound_step (suffix : body <:+ tail) (shorter : body.length < tail.length) :
    SectionStep opens call region tail calls finished
      (refusedRound opens call region tail body calls) := by
  rw [refusedRound]
  split_ifs with begun more
  · exact .text begun
  · exact .skip suffix shorter begun
  · exact .close suffix_rfl (.inr begun)

include reader in
lemma callRound_step (suffix : body <:+ tail) (shorter : body.length < tail.length) :
    SectionStep opens call region tail calls finished
      (callRound opens call read region finished tail body calls) := by
  rw [callRound]
  split
  next found rest reading =>
    have left := reader.leaves _ _ _ _ reading
    exact .read (left.trans suffix) (lt_of_le_of_lt left.length_le shorter)
      (reader.named _ _ _ _ reading)
      (reader.final _ _ _ _ reading (.inr nofun))
  next found reading =>
    exact .last (reader.named _ _ _ _ reading)
      fun isOver => reader.final _ _ _ _ reading (.inl isOver)
  next =>
    split
    · exact refusedRound_step suffix shorter
    next going =>
      split
      next unread =>
        rw [Bool.and_eq_true, decide_eq_true_iff] at unread
        exact .wait (Bool.eq_false_iff.mpr going) unread.1
      next => exact .more
  next => exact refusedRound_step suffix shorter

lemma atEnd_step : SectionStep opens call region tail calls finished
      (.stop (.calls calls (if finished then some (byteLength region) else none))) := by
  cases isOver : finished with
  | true => exact .ended rfl
  | false => exact .more

lemma drop_shorter {tag : Text} (named : tag ≠ []) (starts : tag <+: rest)
    (suffix : rest <:+ tail) :
    rest.drop tag.length <:+ tail ∧ (rest.drop tag.length).length < tail.length := by
  refine ⟨(drop_suffix _ _).trans suffix, ?_⟩
  have pos := length_pos_of_ne_nil named
  have within := starts.length_le
  have whole := suffix.length_le
  rw [length_drop]
  omega

include reader tags in
/-- Everything a round of a section can do. -/
lemma sectionRound_step (region tail : Text) (calls : List PartialCall) (finished : Bool) :
    SectionStep opens call region tail calls finished
      (sectionRound opens call closes read region finished (tail, calls)) := by
  have spaced := skipWs_suffix tail
  rw [sectionRound]
  split
  next opener found =>
    obtain ⟨mem, starts⟩ := find?_isPrefix found
    have named := tags.named opener (mem_append_right _ (mem_append_left _ mem))
    obtain ⟨suffix, shorter⟩ := drop_shorter named starts spaced
    exact callRound_step reader suffix shorter
  next missing =>
    split
    next close found =>
      obtain ⟨mem, starts⟩ := find?_isPrefix found
      have named := tags.named close (mem_append_right _ (mem_append_right _ mem))
      obtain ⟨suffix, shorter⟩ := drop_shorter named starts spaced
      exact .close suffix (.inl shorter)
    next unclosed =>
      rw [otherRound]
      split
      · exact atEnd_step
      · split
        next both =>
          rw [Bool.and_eq_true, decide_eq_true_iff] at both
          split
          next cut found =>
            have whole := cutFirst_rebuild found
            -- no tag starts here, so the one found lies further on
            have moved : cut.before ≠ [] := by
              intro empty
              rw [empty, nil_append] at whole
              have starts : cut.marker <+: skipWs tail := ⟨cut.after, whole.symm⟩
              rcases mem_append.mp (cutFirst_marker_mem found) with opener | closer
              · exact find?_isPrefix_none.mp missing _ opener starts
              · exact find?_isPrefix_none.mp unclosed _ closer starts
            have suffix : cut.marker ++ cut.after <:+ skipWs tail := ⟨cut.before, whole.symm⟩
            refine .skip (suffix.trans spaced) ?_ both.2
            have pos := length_pos_of_ne_nil moved
            have size := congrArg List.length whole
            have within := spaced.length_le
            rw [length_append] at size
            omega
          next => exact atEnd_step
        next =>
          split
          next unread => exact .text unread
          next begun => exact .close suffix_rfl (.inr begun)

include reader tags in
lemma sectionRound_decreases (region : Text) (finished : Bool) :
    Decreases (sectionRound opens call closes read region finished) fun cur => cur.1.length := by
  rintro ⟨tail, calls⟩ later round
  have step := sectionRound_step reader tags region tail calls finished
  rw [round] at step
  cases step with
  | skip _ shorter | read _ shorter => exact shorter

/-! ## Growing -/

/-- Where the loop of a section starts. -/
def sectionStart (opens : List Text) (region : Text) : Text :=
  match sectionOpen opens region with
  | some marker => region.drop marker.length
  | none => region

/-- The loop of a section, to its end. -/
def sectionRun (region : Text) (finished : Bool) (current : Text × List PartialCall) : Scan :=
  Loop.run (sectionRound opens call closes read region finished)
    (fun current => current.1.length)
    (sectionRound_decreases reader tags region finished) current

include reader tags in
lemma sectionScan_eq : sectionScan opens call closes read region finished =
      sectionRun reader tags region finished (sectionStart opens region, []) := by
  have shorter : (sectionStart opens region).length ≤ region.length := by
    rw [sectionStart]
    split
    · exact (drop_suffix _ _).length_le
    · exact le_rfl
  have ended : loop (sectionRound opens call closes read region finished)
      (region.length + 1) (sectionStart opens region, []) = some _ :=
    loop_mono (Nat.succ_le_succ shorter)
      (Loop.run_spec (sectionRound_decreases reader tags region finished)
        (sectionStart opens region, []))
  show (loop _ _ (sectionStart opens region, [])).getD _ = _
  rw [ended]
  rfl

/-- Calls that have been read stay, and others may follow. -/
lemma sectionRun_keeps (region tail : Text) (begun : calls ≠ []) (finished : Bool) :
    ∃ more ending, sectionRun reader tags region finished (tail, calls) =
        .calls (calls ++ more) ending := by
  have next : ∀ cur later : Text × List PartialCall, (∃ more, cur.2 = calls ++ more) →
      sectionRound opens call closes read region finished cur =
        .next later → ∃ more, later.2 = calls ++ more := by
    rintro ⟨tail, _⟩ later ⟨more, rfl⟩ round
    have step := sectionRound_step reader tags region tail (calls ++ more) finished
    rw [round] at step
    cases step with
    | skip => exact ⟨more, rfl⟩
    | read => exact ⟨_, append_assoc _ _ _⟩
  have stop : ∀ (cur : Text × List PartialCall) (result : Scan), (∃ more, cur.2 = calls ++ more) →
      sectionRound opens call closes read region finished cur =
        .stop result → ∃ more ending, result = .calls (calls ++ more) ending := by
    rintro ⟨tail, _⟩ result ⟨more, rfl⟩ round
    have filled : calls ++ more ≠ [] := by simp [begun]
    have step := sectionRound_step reader tags region tail (calls ++ more) finished
    rw [round] at step
    cases step with
    | last =>
      rw [append_assoc]
      exact ⟨_, _, rfl⟩
    | wait _ empty => exact absurd empty filled
    | more | close | ended => exact ⟨more, _, rfl⟩
    | text empty => exact absurd empty filled
  exact Loop.run_rule (sectionRound_decreases reader tags region finished)
    next stop ⟨[], (append_nil _).symm⟩

/-- What a round must become when `tail` follows the text. -/
def SectionGrows (tail : Text) (calls : List PartialCall) : Round (Text × List PartialCall) Scan →
      Round (Text × List PartialCall) Scan → Prop
  | .next (rest, read), later => later = .next (rest ++ tail, read)
  | .stop .pending, _ => True
  | .stop (.text length), later => later = .stop (.text length)
  | .stop (.calls found (some length)), later => later = .stop (.calls found (some length))
  | .stop (.calls found none), later =>
    found = calls ∨ ∃ before after, found = calls ++ [before] ∧ Kept before after ∧
      (later = .stop (.calls (calls ++ [after]) none) ∨
        ∃ rest, later = .next (rest, calls ++ [after]))

/-- A region that starts with a marker. -/
def SectionMarked (opens call : List Text) (region : Text) : Prop :=
  ∃ marker ∈ opens ++ call, marker <+: region

variable (marked : SectionMarked opens call region)

include marked in
/-- One without an opener starts with a call. -/
lemma SectionMarked.caller (found : sectionOpen opens region = none) :
    ∃ marker ∈ call, marker <+: region := by
  obtain ⟨marker, mem, starts⟩ := marked
  rcases mem_append.mp mem with opener | caller
  · exact absurd starts (find?_isPrefix_none.mp found marker opener)
  · exact ⟨marker, caller, starts⟩

include marked in
lemma SectionMarked.search (found : sectionOpen opens region = none) :
    ∃ marker, (call.find? fun marker => marker.isPrefixOf region) = some marker := by
  obtain ⟨marker, caller, starts⟩ := marked.caller found
  exact Option.ne_none_iff_exists'.mp fun missing =>
    find?_isPrefix_none.mp missing marker caller starts

include tags marked in
lemma sectionOpen_extend (tail : Text) :
    sectionOpen opens (region ++ tail) = sectionOpen opens region := by
  cases found : sectionOpen opens region with
  | some marker => exact find?_extend tags.markers.left found tail
  | none =>
    obtain ⟨marker, caller, starts⟩ := marked.caller found
    exact find?_none_of_other tags.markers caller found starts tail

include tags marked in
lemma sectionMarker_extend (tail : Text) : sectionMarker opens call (region ++ tail) =
      sectionMarker opens call region := by
  rw [sectionMarker, sectionMarker, sectionOpen_extend tags marked]
  cases found : sectionOpen opens region with
  | some marker => rfl
  | none =>
    obtain ⟨marker, search⟩ := marked.search found
    rw [search, find?_extend tags.markers.right search]

lemma offsetOf_append (region rest tail : Text) :
    offsetOf (region ++ tail) (rest ++ tail) = offsetOf region rest := by
  rw [offsetOf, offsetOf, byteLength_append, byteLength_append, Nat.add_sub_add_right]

/-- Where the loop of a section can be: in a section, behind a call or at
one. -/
def Entered (opens call : List Text) (region tail : Text) (calls : List PartialCall) : Prop :=
  (sectionOpen opens region).isSome = true ∨ calls ≠ [] ∨ ∃ tag ∈ call, tag <+: skipWs tail

/-- Where no call starts, a section is open or calls have been read. -/
lemma Entered.here (entered : Entered opens call region tail calls)
    (off : ∀ tag ∈ call, ¬ tag <+: skipWs tail) :
    ((sectionOpen opens region).isSome || decide (calls ≠ [])) = true := by
  rw [Bool.or_eq_true, decide_eq_true_iff]
  rcases entered with opened | begun | ⟨tag, mem, starts⟩
  · exact .inl opened
  · exact .inr begun
  · exact absurd starts (off tag mem)

include tags marked in
lemma refusedRound_grows (tail body : Text) (calls : List PartialCall) (later : Text) :
    SectionGrows later calls (refusedRound opens call region tail body calls)
      (refusedRound opens call (region ++ later) (tail ++ later) (body ++ later) calls) := by
  rw [refusedRound, refusedRound, sectionMarker_extend tags marked,
    sectionOpen_extend tags marked, offsetOf_append]
  split
  · rfl
  · split <;> rfl

include reader tags marked in
lemma callRound_grows (tail body : Text)
    (calls : List PartialCall) (later : Text) (finished : Bool) :
    SectionGrows later calls
      (callRound opens call read region false tail body calls)
      (callRound opens call read (region ++ later) finished (tail ++ later)
        (body ++ later) calls) := by
  have same := refusedRound_grows tags marked tail body calls later
  rw [callRound, callRound]
  cases reading : read body false with
  | refused =>
    rw [reader.refused _ reading]
    exact same
  | waiting =>
    rw [if_neg Bool.false_ne_true]
    dsimp only
    split
    · trivial
    · exact .inl rfl
  | call found rest =>
    cases rest with
    | some rest =>
      rw [reader.closed _ _ _ reading]
      rfl
    | none =>
      obtain ⟨after, rest, longer, kept⟩ := reader.opened _ _ reading later finished
      rw [longer]
      refine .inr ⟨found, after, rfl, kept, ?_⟩
      cases rest with
      | none => exact .inl rfl
      | some rest => exact .inr ⟨rest, rfl⟩

include tags marked in
lemma otherRound_grows (off : ((call ++ closes).any fun tag => rest.isPrefixOf tag) = false)
    (offLater : ∀ later, ((call ++ closes).any fun tag => (rest ++ later).isPrefixOf tag) = false)
    (tail : Text) (calls : List PartialCall) (later : Text) (finished : Bool) :
    SectionGrows later calls
      (otherRound opens call closes region false tail rest calls)
      (otherRound opens call closes (region ++ later) finished
        (tail ++ later) (rest ++ later) calls) := by
  rw [otherRound, otherRound, off, offLater, sectionOpen_extend tags marked,
    sectionMarker_extend tags marked, offsetOf_append, Bool.false_and]
  rw [if_neg Bool.false_ne_true, if_neg Bool.false_ne_true]
  split
  · cases found : cutFirst (call ++ closes) rest with
    | some cut =>
      rw [cutFirst_append tags.tags found]
      show Round.next _ = Round.next _
      rw [Cut.extend, append_assoc]
    | none => exact .inl rfl
  · split <;> rfl

include reader tags marked in
/-- A round before a longer text. -/
lemma sectionRound_grows
    (entered : Entered opens call region tail calls) (later : Text) (finished : Bool) :
    SectionGrows later calls
      (sectionRound opens call closes read region false (tail, calls))
      (sectionRound opens call closes read (region ++ later) finished (tail ++ later, calls)) := by
  rw [sectionRound, sectionRound]
  by_cases blank : skipWs tail = []
  · -- a text without anything in it says nothing yet
    have missing : ∀ list : List Text, (∀ tag ∈ list, tag ≠ []) →
        (list.find? fun tag => tag.isPrefixOf []) = none := by
      intro list named
      rw [find?_isPrefix_none]
      intro tag mem starts
      exact named tag mem (prefix_nil.mp starts)
    have calls_ : ∀ tag ∈ call, tag ≠ [] := fun tag mem =>
      tags.named tag (mem_append_right _ (mem_append_left _ mem))
    have closes_ : ∀ tag ∈ closes, tag ≠ [] := fun tag mem =>
      tags.named tag (mem_append_right _ (mem_append_right _ mem))
    have waits : ((call ++ closes).any fun tag => List.isPrefixOf [] tag) = true := by
      obtain ⟨tag, rest, same⟩ := exists_cons_of_ne_nil tags.some_call
      rw [same]
      rfl
    have here := entered.here fun tag mem starts =>
      calls_ tag mem (prefix_nil.mp (blank ▸ starts))
    rw [blank, missing call calls_, missing closes closes_]
    dsimp only
    rw [otherRound, waits, here]
    exact .inl rfl
  · rw [skipWs_append blank]
    cases opener : call.find? fun tag => tag.isPrefixOf (skipWs tail) with
    | some tag =>
      have within := (find?_isPrefix opener).2.length_le
      rw [find?_extend tags.tags.left opener]
      dsimp only
      rw [drop_append_of_le_length within]
      exact callRound_grows reader tags marked tail _ calls later finished
    | none =>
      cases closer : closes.find? fun tag => tag.isPrefixOf (skipWs tail) with
      | some tag =>
        obtain ⟨mem, starts⟩ := find?_isPrefix closer
        rw [find?_none_of_other tags.tags mem opener starts, find?_extend tags.tags.right closer]
        dsimp only
        rw [drop_append_of_le_length starts.length_le, offsetOf_append]
        rfl
      | none =>
        have missing : ((call ++ closes).find? fun tag => tag.isPrefixOf (skipWs tail)) = none := by
          rw [List.find?_append, opener, closer]
          rfl
        have here := entered.here (find?_isPrefix_none.mp opener)
        cases near : (call ++ closes).any fun tag => (skipWs tail).isPrefixOf tag with
        | true =>
          dsimp only
          rw [otherRound, near, here]
          exact .inl rfl
        | false =>
          have both := (find?_extend_none missing near later).1
          rw [List.find?_append, Option.or_eq_none_iff] at both
          rw [both.1, both.2]
          exact otherRound_grows tags marked near
            (fun later => (find?_extend_none missing near later).2)
            tail calls later finished

lemma extends_append (calls : List PartialCall) {known : List Known}
    {more : List PartialCall} (extends_ : Extends known more) :
    Extends (calls.map PartialCall.known ++ known) (calls ++ more) := by
  induction calls with
  | nil => exact extends_
  | cons call calls ih => exact ⟨rfl, rfl, fun _ final => final, ih⟩

include marked in
/-- The loop of a section before a longer text. -/
lemma sectionRun_grows
    (entered : Entered opens call region tail calls) (later : Text) (finished : Bool) :
    Scan.Grows (sectionRun reader tags region false (tail, calls))
      (sectionRun reader tags (region ++ later) finished (tail ++ later, calls)) := by
  have decreases := sectionRound_decreases reader tags region false
  induction bound : tail.length using Nat.strongRecOn generalizing tail calls with
  | ind size ih =>
    have grows := sectionRound_grows reader tags marked entered later finished
    have step := sectionRound_step reader tags region tail calls false
    cases round : sectionRound opens call closes read region false (tail, calls) with
    | next cur =>
      obtain ⟨rest, read⟩ := cur
      rw [round] at grows step
      have shorter : rest.length < size := by
        rw [← bound]
        exact decreases _ _ round
      have further : Entered opens call region rest read := by
        cases step with
        | skip _ _ begun => exact .inr (.inl begun)
        | read => exact .inr (.inl (by simp))
      rw [sectionRun, sectionRun, Loop.run_next _ round, Loop.run_next _ grows]
      exact ih rest.length shorter further rfl
    | stop scan =>
      rw [round] at grows
      rw [sectionRun, Loop.run_stop _ round]
      cases scan with
      | pending => trivial
      | text length => exact Loop.run_stop _ grows
      | calls found ending =>
        cases ending with
        | some length => exact Loop.run_stop _ grows
        | none =>
          rcases grows with rfl | ⟨before, after, rfl, kept, goes⟩
          · by_cases begun : found = []
            · exact .inl begun
            · obtain ⟨more, ending, same⟩ := sectionRun_keeps reader
                tags (region ++ later) (tail ++ later) begun finished
              refine .inr ⟨_, _, same, ?_⟩
              have extended := extends_append found (show Extends [] more from trivial)
              rw [append_nil] at extended
              exact extended
          · have extended : ∀ more, Extends ((calls ++ [before]).map PartialCall.known)
                (calls ++ [after] ++ more) := by
              intro more
              rw [map_append, append_assoc]
              exact extends_append calls ⟨kept.id, kept.name, kept.done, trivial⟩
            right
            rcases goes with stops | ⟨rest, on⟩
            · refine ⟨_, _, Loop.run_stop _ stops, ?_⟩
              have last := extended []
              rw [append_nil] at last
              exact last
            · have begun : calls ++ [after] ≠ [] := by simp
              obtain ⟨more, ending, same⟩ := sectionRun_keeps reader
                tags (region ++ later) rest begun finished
              refine ⟨_, ending, ?_, extended more⟩
              rw [sectionRun, Loop.run_next _ on]
              exact same

lemma skipWs_of_head (angled : text.head? = some '<') : skipWs text = text := by
  cases text with
  | nil => rfl
  | cons c rest =>
    cases angled
    rfl

lemma head_of_prefix {marker : Text} (angled : marker.head? = some '<') (starts : marker <+: text) :
    text.head? = some '<' := by
  obtain ⟨rest, rfl⟩ := starts
  cases marker with
  | nil => cases angled
  | cons c more => exact angled

include tags marked in
lemma SectionMarked.head : region.head? = some '<' := by
  obtain ⟨marker, mem, starts⟩ := marked
  exact head_of_prefix (tags.angled marker mem) starts

include tags marked in
lemma entered_start : Entered opens call region (sectionStart opens region) [] := by
  cases found : sectionOpen opens region with
  | some marker => exact .inl (by rw [found]; rfl)
  | none =>
    have head := marked.head tags
    obtain ⟨marker, caller, starts⟩ := marked.caller found
    refine .inr (.inr ⟨marker, caller, ?_⟩)
    rw [sectionStart, found]
    dsimp only
    rw [skipWs_of_head head]
    exact starts

include tags marked in
lemma sectionStart_append
    (later : Text) : sectionStart opens (region ++ later) = sectionStart opens region ++ later := by
  rw [sectionStart, sectionStart, sectionOpen_extend tags marked]
  cases found : sectionOpen opens region with
  | some marker => exact drop_append_of_le_length (find?_isPrefix found).2.length_le
  | none => rfl

include reader tags marked in
/-- What a section read as before stays when it grows, or at the end. -/
lemma sectionScan_grows (later : Text) (finished : Bool) :
    Scan.Grows (sectionScan opens call closes read region false)
      (sectionScan opens call closes read (region ++ later) finished) := by
  rw [sectionScan_eq reader tags, sectionScan_eq reader tags, sectionStart_append tags marked]
  exact sectionRun_grows reader tags marked (entered_start tags marked) later finished

/-! ## What a section gives -/

/-- The lengths of a scan lie in the region, its calls have names, and final
arguments once no more can follow. -/
def SectionResult (opens call : List Text) (region : Text) (finished : Bool) : Scan → Prop
  | .pending => finished = false
  | .text length => length = sectionMarker opens call region
  | .calls found ending =>
    (∀ call ∈ found, call.name ≠ []) ∧ (finished = true ∨ ending ≠ none →
        ∀ call ∈ found, call.done ≠ none) ∧
      ∀ length, ending = some length → 0 < length ∧ isCharBoundary region length = true

/-- The loop is at an end of the region, behind its start once a call has been
read, and the calls read are complete. -/
structure SectionPlace (region : Text) (current : Text × List PartialCall) : Prop where
  suffix : current.1 <:+ region
  behind : current.2 ≠ [] → current.1.length < region.length
  named : ∀ call ∈ current.2, call.name ≠ []
  final : ∀ call ∈ current.2, call.done ≠ none

lemma offsetOf_boundary (suffix : rest <:+ region) (shorter : rest.length < region.length) :
    0 < offsetOf region rest ∧ isCharBoundary region (offsetOf region rest) = true := by
  obtain ⟨used, rfl⟩ := suffix
  have filled : used ≠ [] := by
    rintro rfl
    exact lt_irrefl _ shorter
  rw [offsetOf, byteLength_append, Nat.add_sub_cancel]
  exact ⟨byteLength_pos filled, isCharBoundary_append used rest⟩

include reader tags in
lemma sectionScan_result (filled : region ≠ []) (finished : Bool) :
    SectionResult opens call region finished
      (sectionScan opens call closes read region finished) := by
  have all : ∀ {p : PartialCall → Prop} {calls : List PartialCall} {found},
      (∀ call ∈ calls, p call) → p found → ∀ call ∈ calls ++ [found], p call :=
    fun every last => forall_mem_append.mpr ⟨every, forall_mem_singleton.mpr last⟩
  have next : ∀ cur later : Text × List PartialCall, SectionPlace region cur →
      sectionRound opens call closes read region finished cur =
        .next later → SectionPlace region later := by
    rintro ⟨tail, calls⟩ later place round
    have step := sectionRound_step reader tags region tail calls finished
    rw [round] at step
    have within := place.suffix.length_le
    cases step with
    | skip suffix shorter =>
      exact ⟨suffix.trans place.suffix, fun _ => lt_of_lt_of_le shorter within, place.named,
        place.final⟩
    | read suffix shorter named final =>
      exact ⟨suffix.trans place.suffix, fun _ => lt_of_lt_of_le shorter within,
        all place.named named, all place.final final⟩
  have stop : ∀ (cur : Text × List PartialCall) (result : Scan), SectionPlace region cur →
      sectionRound opens call closes read region finished cur =
        .stop result → SectionResult opens call region finished result := by
    rintro ⟨tail, calls⟩ result place round
    have step := sectionRound_step reader tags region tail calls finished
    rw [round] at step
    have within := place.suffix.length_le
    cases step with
    | last named final =>
      refine ⟨all place.named named, ?_, nofun⟩
      rintro (isOver | never)
      · exact all place.final (final isOver)
      · exact absurd rfl never
    | wait going => exact going
    | more => exact ⟨place.named, fun _ => place.final, nofun⟩
    | close suffix behind =>
      refine ⟨place.named, fun _ => place.final, ?_⟩
      rintro length ⟨⟩
      apply offsetOf_boundary (suffix.trans place.suffix)
      rcases behind with shorter | begun
      · exact lt_of_lt_of_le shorter within
      · exact lt_of_le_of_lt suffix.length_le (place.behind begun)
    | ended =>
      refine ⟨place.named, fun _ => place.final, ?_⟩
      rintro length ⟨⟩
      exact ⟨byteLength_pos filled, isCharBoundary_byteLength region⟩
    | text => rfl
  have start : SectionPlace region (sectionStart opens region, []) := by
    refine ⟨?_, fun begun => absurd rfl begun, nofun, nofun⟩
    rw [sectionStart]
    split
    · exact drop_suffix _ _
    · exact suffix_rfl
  rw [sectionScan_eq reader tags]
  exact Loop.run_rule (sectionRound_decreases reader tags region finished) next stop start

include tags marked in
lemma sectionMarker_boundary : 0 < sectionMarker opens call region ∧
      isCharBoundary region (sectionMarker opens call region) = true := by
  have there : ∃ marker ∈ opens ++ call, marker <+: region ∧
      sectionMarker opens call region = byteLength marker := by
    rw [sectionMarker]
    cases found : sectionOpen opens region with
    | some j =>
      obtain ⟨among, begins⟩ := find?_isPrefix found
      exact ⟨j, mem_append_left _ among, begins, rfl⟩
    | none =>
      obtain ⟨j, search⟩ := marked.search found
      obtain ⟨among, begins⟩ := find?_isPrefix search
      rw [search]
      exact ⟨j, mem_append_right _ among, begins, rfl⟩
  obtain ⟨marker, mem, ⟨rest, rfl⟩, size⟩ := there
  have filled : marker ≠ [] := by
    rintro rfl
    cases tags.angled [] mem
  rw [size]
  exact ⟨byteLength_pos filled, isCharBoundary_append marker rest⟩

/-! ## Section-driven grammars -/

include reader tags in
/-- The grammar of a section is steady. -/
lemma sectionGrammar_steady {grammar : Grammar}
    (anywhere : ∀ marker ∈ grammar.markers, marker.leading = false)
    (texts : grammar.markers.map Marker.text = opens ++ call)
    (scan : grammar.scan = sectionScan opens call closes read) : grammar.Steady := by
  have everywhere : grammar.anywhere = opens ++ call := by
    rw [Grammar.anywhere, ← texts, filter_eq_self.mpr]
    intro marker mem
    simp [anywhere marker mem]
  have marked_iff : ∀ {region}, grammar.Marked region → SectionMarked opens call region := by
    intro region marked
    rw [Grammar.Marked, everywhere] at marked
    exact marked
  have result : ∀ {region finished given}, grammar.Marked region →
      grammar.scan region finished = given → SectionResult opens call region finished given := by
    rintro region finished _ marked rfl
    rw [scan]
    apply sectionScan_result reader tags
    intro empty
    have head := (marked_iff marked).head tags
    rw [empty] at head
    cases head
  constructor
  case anywhere => exact anywhere
  case named =>
    intro marker mem empty
    have among : marker.text ∈ opens ++ call := texts ▸ mem_map_of_mem mem
    have head := tags.angled _ among
    rw [empty] at head
    cases head
  case apart =>
    rw [everywhere]
    exact tags.markers
  case grows =>
    intro region tail finished marked
    rw [scan]
    exact sectionScan_grows reader tags (marked_iff marked) tail finished
  case decided =>
    intro region marked pending
    cases result marked pending
  case text =>
    intro region finished length marked scanned
    rw [show length = _ from result marked scanned]
    exact sectionMarker_boundary tags (marked_iff marked)
  case closing =>
    intro region finished calls length marked scanned
    exact (result marked scanned).2.2 length rfl
  case names =>
    intro region finished calls ending marked scanned
    exact (result marked scanned).1
  case final =>
    intro region finished calls ending marked scanned
    exact (result marked scanned).2.1
  case foreign =>
    intro region marked starts
    have head := (marked_iff marked).head tags
    cases region with
    | nil => cases head
    | cons c rest =>
      cases head
      have first : trimStart ('<' :: rest) = '<' :: rest := rfl
      rw [first] at starts
      exact absurd (cons_prefix_cons.mp starts).1 (by decide)

end Section

end Joshua
