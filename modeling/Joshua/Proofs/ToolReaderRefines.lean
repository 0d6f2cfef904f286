/-
Module: Joshua.Proofs.ToolReaderRefines
Purpose: For a steady grammar the tool-call stream does what the abstract
  reader does, so that its calls, its prose and the calls it starts do not
  depend on how the text was cut.
Trusted boundary: none
-/
import Joshua.Proofs.ToolReader
import Joshua.Proofs.ToolStreamSafety

namespace Joshua
open Joshua.Foundation List ToolEvent

/-! ## What a client sees -/

def ToolEvent.said : ToolEvent → Text
  | .text spoken => spoken
  | _ => []

def ToolEvent.started : ToolEvent → Option Text
  | .callStart _ _ name => some name
  | _ => none

/-- The concatenated prose. -/
def saidText (events : List ToolEvent) : Text :=
  events.flatMap ToolEvent.said

/-- The names of the calls that were started, in order. -/
def startedNames (events : List ToolEvent) : List Text :=
  events.filterMap ToolEvent.started

@[simp]
lemma saidText_append (first second : List ToolEvent) :
    saidText (first ++ second) = saidText first ++ saidText second :=
  flatMap_append

@[simp]
lemma startedNames_append (first second : List ToolEvent) : startedNames (first ++ second) =
      startedNames first ++ startedNames second :=
  filterMap_append

section
variable (out : List ToolEvent) (text : Text)

/-- Prose is merged into a preceding text event or appended. -/
lemma pushText_cases :
    (text = [] ∧ pushText out text = out) ∨ pushText out text = out ++ [.text text] ∨
      ∃ front last, out = front ++ [.text last] ∧
        pushText out text = front ++ [.text (last ++ text)] := by
  rw [pushText]
  split
  next empty => exact .inl ⟨empty, rfl⟩
  next =>
    split
    next last found =>
      obtain ⟨front, rfl⟩ := List.getLast?_eq_some_iff.mp found
      exact .inr (.inr ⟨front, last, rfl, by rw [dropLast_concat]⟩)
    next => exact .inr (.inl rfl)

lemma saidText_pushText : saidText (pushText out text) = saidText out ++ text := by
  rcases pushText_cases out text with
    ⟨rfl, same⟩ | same | ⟨front, last, rfl, same⟩
  · rw [same, append_nil]
  · rw [same]
    simp [saidText, said]
  · rw [same]
    simp [saidText, said]

lemma startedNames_pushText : startedNames (pushText out text) = startedNames out := by
  rcases pushText_cases out text with
    ⟨rfl, same⟩ | same | ⟨front, last, rfl, same⟩
  · rw [same]
  · rw [same]
    simp [startedNames, started]
  · rw [same]
    simp only [startedNames_append]
    rfl

end

/-! ## The reader behind a stream -/

/-- A stream that has sent `history` and then `progress.out` is where the
reader is, with the same calls and the same things said. -/
structure Refines (history : List ToolEvent) (reader : Reader) (progress : Progress) : Prop where
  sound : Sound progress.stream reader.ahead
  region : progress.stream.region =
    if reader.inside then some progress.stream.pos else none
  broken : progress.stream.broken = none
  calls : progress.stream.calls.map Sent.known = reader.earlier ++ reader.current
  first : reader.inside = true → progress.stream.regionFirst = reader.earlier.length
  hold : progress.stream.holdWhitespace = reader.hold
  held : progress.stream.heldWhitespace = reader.held
  said : saidText (history ++ progress.out) = reader.said
  started : startedNames (history ++ progress.out) = reader.started

namespace Refines

variable {past : List ToolEvent} {reader : Reader} {progress : Progress}

section
variable (refines : Refines past reader progress)
include refines

lemma opened (inside : reader.inside = true) :
    progress.stream.region = some progress.stream.pos := by
  rw [refines.region, if_pos inside]

lemma closed (outside : reader.inside = false) : progress.stream.region = none := by
  rw [refines.region, outside]
  rfl

lemma say (text : Text) : Refines past (reader.say text) (prose text progress) := by
  have same := prose_samePlace text progress
  have calls := prose_calls text progress
  obtain ⟨ahead, inside, earlier, cur⟩ := Reader.say_frame text reader
  have spoken : (prose text progress).stream.holdWhitespace = (reader.say text).hold ∧
      (prose text progress).stream.heldWhitespace = (reader.say text).held ∧
      saidText (past ++ (prose text progress).out) = (reader.say text).said ∧
      startedNames (past ++ (prose text progress).out) = (reader.say text).started := by
    rw [prose, Reader.say, refines.hold]
    split
    · exact ⟨refines.hold, refines.held, refines.said, refines.started⟩
    · split
      next held =>
        split
        · exact ⟨rfl, by simp only [refines.held], refines.said, refines.started⟩
        · refine ⟨rfl, rfl, ?_, ?_⟩
          · simp only [← refines.said, saidText_append, saidText_pushText, refines.held,
              append_assoc]
          · simp only [← refines.started, startedNames_append, startedNames_pushText]
      next =>
        refine ⟨rfl, refines.held, ?_, ?_⟩
        · simp only [← refines.said, saidText_append, saidText_pushText, append_assoc]
        · simp only [← refines.started, startedNames_append, startedNames_pushText]
  constructor
  case sound => exact ahead ▸ refines.sound.of_samePlace same
  case region => rw [same.region, same.pos, inside, refines.region]
  case broken => exact same.broken.trans refines.broken
  case calls => rw [calls, earlier, cur, refines.calls]
  case first =>
    intro opened
    rw [same.regionFirst, earlier]
    exact refines.first (inside ▸ opened)
  case hold => exact spoken.1
  case held => exact spoken.2.1
  case said => exact spoken.2.2.1
  case started => exact spoken.2.2.2

end

end Refines

/-! ## Calls -/

/-- Calls have been synchronised: the stream knows `calls`, has started the
new ones and has said nothing. -/
structure Synced (calls : List Known) (new : List PartialCall)
    (before after : Progress) : Prop where
  place : SamePlace before.stream after.stream
  known : after.stream.calls.map Sent.known = calls
  hold : after.stream.holdWhitespace =
    if new = [] then before.stream.holdWhitespace else true
  held : after.stream.heldWhitespace =
    if new = [] then before.stream.heldWhitespace else []
  said : saidText after.out = saidText before.out
  started : startedNames after.out = startedNames before.out ++ new.map PartialCall.name

lemma Synced.trans {calls more : List Known} {new later : List PartialCall}
    {first second third : Progress} (one : Synced calls new first second)
    (two : Synced more later second third) :
    Synced more (new ++ later) first third where
  place := one.place.trans two.place
  known := two.known
  hold := by
    rw [two.hold, one.hold]
    cases new <;> cases later <;> rfl
  held := by
    rw [two.held, one.held]
    cases new <;> cases later <;> rfl
  said := two.said.trans one.said
  started := by
    rw [two.started, one.started, map_append, append_assoc]

variable {call : PartialCall}

/-- An update of a call that was known to a reading that keeps it. -/
lemma updateSent_known {sent : Sent} (id : call.id = sent.id) (name : call.name = sent.name)
    (done : ∀ args, sent.done = some args → call.done = some args) :
    Checked True (fun result => result.1.known = call.known) (updateSent sent call) := by
  refine (updateSent_spec sent call).imp fun updated spec => ?_
  obtain ⟨_, sameId, sameName, sameDone⟩ := spec
  rw [Sent.known, PartialCall.known, sameId, sameName, sameDone, id, name, Option.or_self]
  cases final : call.done with
  | some args => rfl
  | none =>
    cases before : sent.done with
    | none => rfl
    | some args => cases final.symm.trans (done args before)

variable {progress : Progress}

lemma syncUpdate_known {front back : List Known} {old : Known}
    (known : progress.stream.calls.map Sent.known = front ++ old :: back) (id : call.id = old.id)
    (name : call.name = old.name) (done : ∀ args, old.done = some args → call.done = some args) :
    Checked True
      (Synced (front ++ call.known :: back) [] progress)
      (syncUpdate front.length call progress) := by
  obtain ⟨before, others, split, rfl, rest⟩ := map_eq_append_iff.mp known
  obtain ⟨sent, after, rfl, rfl, rfl⟩ := map_eq_cons_iff.mp rest
  have found : progress.stream.calls[(before.map Sent.known).length]? = some sent := by
    rw [split, length_map, List.getElem?_append_right le_rfl, Nat.sub_self]
    rfl
  have changed : ∀ updated : Sent, updated.known = call.known →
      (progress.stream.calls.set (before.map Sent.known).length updated).map Sent.known =
        before.map Sent.known ++ call.known :: after.map Sent.known := by
    intro updated same
    rw [split, length_map, set_append_right _ _ le_rfl,
      Nat.sub_self, set_cons_zero, map_append, map_cons, same]
  rw [syncUpdate, found]
  refine .bind (updateSent_known id name done) ?_
  rintro ⟨updated, delta⟩ same
  have place : SamePlace progress.stream { progress.stream with
      calls := progress.stream.calls.set (before.map Sent.known).length updated } :=
    ⟨rfl, rfl, rfl, rfl, rfl, by simp⟩
  cases delta with
  | none => exact ⟨place, changed updated same, rfl, rfl, rfl, by simp⟩
  | some delta =>
    refine ⟨place, changed updated same, rfl, rfl, ?_, ?_⟩
    · simp [saidText, said]
    · simp [startedNames, started]

lemma startCall_synced (call : PartialCall) (progress : Progress) :
    Synced (progress.stream.calls.map Sent.known ++ [⟨call.id, call.name, none⟩]) [call] progress
      (startCall progress.stream.calls.length call progress) where
  place := ⟨rfl, rfl, rfl, rfl, rfl, by simp [startCall]⟩
  known := by simp [startCall, Sent.known]
  hold := rfl
  held := rfl
  said := by simp [startCall, saidText, said]
  started := by simp [startCall, startedNames, started]

lemma regionHasMistralIds_congr {before after : ToolStream} (same : SamePlace before after) :
    regionHasMistralIds after = regionHasMistralIds before := by
  rw [regionHasMistralIds, regionHasMistralIds, same.region, same.text]

/-- The loop of `sync` over a reading that keeps the calls known. -/
lemma syncFrom_known {format : Option ToolCallFormat}
    (early : format.any ToolCallFormat.maySupplyLateId = false) {calls : List PartialCall}
    {front cur : List Known} (known : progress.stream.calls.map Sent.known = front ++ cur)
    (extends_ : Extends cur calls) (names : ∀ call ∈ calls, call.name ≠ [])
    (plain : regionHasMistralIds progress.stream = .ok false) : Checked True
      (Synced (front ++ calls.map PartialCall.known) (calls.drop cur.length) progress)
      (syncFrom format front.length calls progress) := by
  induction calls generalizing front cur progress with
  | nil =>
    have empty : cur = [] := eq_nil_of_length_eq_zero (Nat.le_zero.mp extends_.length_le)
    subst empty
    exact ⟨.refl _, known, rfl, rfl, rfl, (append_nil _).symm⟩
  | cons call calls ih =>
    have size : progress.stream.calls.length = front.length + cur.length := by
      rw [← length_map (f := Sent.known), known, length_append]
    have named := names call mem_cons_self
    have later : ∀ other ∈ calls, other.name ≠ [] := fun other mem =>
      names other (mem_cons_of_mem _ mem)
    -- the loop behind this call
    have onward : ∀ {cur new next}, Synced (front ++ call.known :: cur) new progress next →
        Extends cur calls → Checked True
          (Synced (front ++ call.known :: calls.map PartialCall.known)
            (new ++ calls.drop cur.length) progress)
          (syncFrom format (front.length + 1) calls next) := by
      intro cur new next updated extends_
      have rest := @ih next (front ++ [call.known]) cur (by rw [updated.known]; simp) extends_ later
        ((regionHasMistralIds_congr updated.place).trans plain)
      rw [length_append, append_assoc] at rest
      exact rest.imp fun _ synced => updated.trans synced
    rw [syncFrom]
    cases cur with
    | nil =>
      have atEnd : front.length = progress.stream.calls.length := size.symm
      rw [if_pos atEnd, if_neg named, plain]
      dsimp only [bind, Except.bind]
      rw [early, Bool.or_self, Bool.and_false]
      have begun := startCall_synced call progress
      rw [known, append_nil] at begun
      rw [if_neg Bool.false_ne_true]
      rw [← atEnd] at begun
      refine .bind (syncUpdate_known begun.known rfl rfl fun _ never => by cases never) ?_
      exact fun started updated => onward (begun.trans updated) trivial
    | cons old cur =>
      obtain ⟨id, name, done, extendsToo⟩ := extends_
      have inside : front.length ≠ progress.stream.calls.length := by
        rw [size, length_cons]
        omega
      rw [if_neg inside]
      refine .bind (syncUpdate_known known id name done) ?_
      exact fun next updated => onward updated extendsToo

section Steady
variable {grammar : Grammar} (steady : grammar.Steady) {format : Option ToolCallFormat}
  (early : format.any ToolCallFormat.maySupplyLateId = false) {ended : Bool} {rounds : Nat}
  {past : List ToolEvent} {reader : Reader}

section Refined
variable (refines : Refines past reader progress) (fits : reader.Fits grammar)

include steady refines fits in
lemma regionHasMistralIds_eq (inside : reader.inside = true) :
    regionHasMistralIds progress.stream = .ok false := by
  obtain ⟨consumed, cut⟩ := refines.sound.split
  have other : ("[TOOL_CALLS]".toList).isPrefixOf (trimStart reader.ahead) = false := by
    rw [Bool.eq_false_iff, Ne, isPrefixOf_iff_prefix]
    exact steady.foreign _ (fits.marked inside)
  rw [regionHasMistralIds, refines.opened inside]
  dsimp only
  rw [cut]
  dsimp only [bind, Except.bind]
  rw [other]
  rfl

variable {calls : List PartialCall} {ending : Option Nat}
include steady early refines fits in
lemma sync_refines (inside : reader.inside = true)
    (scanned : grammar.scan reader.ahead ended = .calls calls ending) :
    Checked True (fun next => SamePlace progress.stream next.stream ∧
        Refines past (reader.meet calls) next)
      (sync format calls progress) := by
  have extends_ := fits.extends_ steady inside scanned
  have names := steady.names _ _ _ _ (fits.marked inside) scanned
  have plain := regionHasMistralIds_eq steady refines fits inside
  rw [sync, refines.first inside]
  refine (syncFrom_known early refines.calls extends_ names plain).imp ?_
  intro next synced
  refine ⟨synced.place, ?_⟩
  constructor
  case sound => exact refines.sound.of_samePlace synced.place
  case region => rw [synced.place.region, synced.place.pos]; exact refines.region
  case broken => exact synced.place.broken.trans refines.broken
  case calls => exact synced.known
  case first =>
    intro opened
    rw [synced.place.regionFirst]
    exact refines.first opened
  case hold => rw [synced.hold, refines.hold]; rfl
  case held => rw [synced.held, refines.held]; rfl
  case said => rw [saidText_append, synced.said, ← saidText_append]; exact refines.said
  case started =>
    rw [startedNames_append, synced.started, ← append_assoc, ← startedNames_append, refines.started]
    rfl

/-! ## Regions that are text -/

variable {length : Nat} {region passed left : Text}
include steady in
lemma marked_of_opening {front back : Text} {marker : Marker}
    (found : opening grammar region = some (marker, length)) (whole : region = front ++ back)
    (longer : length ≤ byteLength front) : grammar.Marked front := by
  obtain ⟨candidate, mem, here⟩ := mem_filterMap.mp (maxByKey?_mem found)
  have everywhere := steady.anywhere candidate mem
  simp only [everywhere, Bool.false_eq_true, if_false, Nat.sub_self, zero_add] at here
  split at here
  next starts =>
    cases here
    refine ⟨marker.text, ?_, ?_⟩
    · exact mem_map.mpr ⟨marker, mem_filter.mpr ⟨mem, by simp [everywhere]⟩, rfl⟩
    · rw [ isPrefixOf_iff_prefix] at starts
      exact prefix_of_byteLength_le starts ⟨back, whole.symm⟩ longer
  next => cases here

include steady in
/-- No beginning of a region that is text reads as calls. -/
lemma callsBeforeBreak_nil (marked : grammar.Marked region)
    (scanned : grammar.scan region ended = .text length) :
    Checked True (fun result => result.1 = []) (callsBeforeBreak grammar region) := by
  have unread : ∀ calls ending, grammar.scan region false = .calls calls ending → calls = [] := by
    intro calls ending reading
    cases ended with
    | false => cases reading.symm.trans scanned
    | true =>
      rcases steady.ends marked reading with unread | ⟨more, last, later, _⟩
      · exact unread
      · cases later.symm.trans scanned
  rw [callsBeforeBreak]
  split
  next calls ending reading => exact unread calls ending reading
  next => rfl
  next length reading =>
    split
    · rfl
    next marker size found =>
      obtain ⟨_, inside, boundary⟩ := opening_spec steady.named found
      refine .bind (bisect_spec inside boundary) ?_
      rintro good ⟨above, between⟩
      obtain ⟨front, back, whole, rfl⟩ := isCharBoundary_iff.mp between
      have here := marked_of_opening steady found whole above
      have later := steady.grows front back false here
      rw [← whole, reading] at later
      rw [scanPrefix, splitAt_eq_ok.mpr ⟨whole, rfl⟩]
      dsimp only [bind, Except.bind, pure, Except.pure]
      cases scan : grammar.scan front false with
      | pending | text length => rfl
      | calls calls ending =>
        rw [scan] at later
        cases ending with
        | some ending => cases later
        | none =>
          rcases later with unread | ⟨more, ending, never, _⟩
          · exact unread
          · cases never

lemma release_eq (filled : passed ≠ []) (start : Nat) (progress : Progress) :
    release (passed ++ left) start (byteLength passed) progress = .ok { prose passed progress with
        stream := { (prose passed progress).stream with
          pos := start + byteLength passed, region := none } } := by
  have first : (((passed ++ left).head?.map Char.utf8Size).getD 0) ≤ byteLength passed := by
    obtain ⟨letter, rest, rfl⟩ := exists_cons_of_ne_nil filled
    exact Nat.le_add_right _ _
  have lt : byteLength passed ≤ byteLength (passed ++ left) := by
    rw [byteLength_append]
    exact Nat.le_add_right _ _
  rw [release]
  dsimp only
  rw [max_eq_left first, min_eq_left lt, boundaryAbove_eq_self Char.utf8Size_pos
      (isCharBoundary_append passed left), splitAt_byteLength]
  rfl

/-! ## Draining -/

/-- What a round leaves: the stream of a reader from which draining goes on as
from the one before, or that draining has reached. -/
def Advances (grammar : Grammar) (finished : Bool)
    (history : List ToolEvent) (reader : Reader) (step : Step) : Prop :=
  ∃ later : Reader, Refines history later step.progress ∧ later.Fits grammar ∧
    if step.again then
      later.measure < reader.measure ∧ ∀ last, Drains grammar finished later last →
          Drains grammar finished reader last
    else Drains grammar finished reader later

lemma measure_leave (reader : Reader) (filled : passed ≠ [])
    (ahead : reader.ahead = passed ++ left) (other : Reader) :
    (other.leave left).measure < reader.measure := by
  have pos := byteLength_pos filled
  rw [Reader.measure, Reader.measure, ahead, byteLength_append]
  show 3 * byteLength left + 2 < _
  split <;> omega

include refines in
/-- The stream behind a part of the text, out of any region. -/
lemma Refines.leave (ahead : reader.ahead = passed ++ left) {pos : Nat}
    (place : pos = progress.stream.pos + byteLength passed) :
    Refines past (reader.leave left) { progress with
      stream := { progress.stream with pos := pos, region := none } } :=
  { refines with
    sound := refines.sound.advance ahead rfl place rfl refines.broken refines.sound.first
    region := rfl
    calls := by
      rw [refines.calls]
      exact (append_nil _).symm
    first := nofun }

include steady in
lemma findMarker_eq (atStart : Bool) (rest : Text) : findMarker grammar atStart rest ended =
      match cutFirst grammar.anywhere rest with
      | some cut => .marker (byteLength cut.before)
      | none =>
        if ended then .hold 0
        else .hold (byteLength (held grammar.anywhere rest)) := by
  have unled : grammar.leading = [] := by
    rw [Grammar.leading, map_eq_nil_iff, filter_eq_nil_iff]
    intro marker mem
    simp [steady.anywhere marker mem]
  cases found : cutFirst grammar.anywhere rest with
  | none | some cut => simp [findMarker, unled, found, partialSuffixBytes_eq_held]

include refines in
/-- Outside a region the stream moves on to what is held back. -/
lemma Refines.move (outside : reader.inside = false) (ahead : reader.ahead = passed ++ left) :
    Refines past (reader.move left) { progress with
      stream := { progress.stream with
        pos := progress.stream.pos + byteLength passed } } :=
  { refines with
    sound := refines.sound.advance ahead rfl rfl (refines.closed outside)
      refines.broken refines.sound.first
    region := by
      rw [Reader.move, outside]
      exact refines.closed outside
    first := fun inside => by cases outside.symm.trans inside }

include refines in
lemma Refines.enter (unread : reader.current = [])
    (ahead : reader.ahead = passed ++ left) (filled : left ≠ []) :
    Refines past (reader.enter left) { progress with
      stream := { progress.stream with
        atStart := false
        pos := progress.stream.pos + byteLength passed
        region := some (progress.stream.pos + byteLength passed)
        regionFirst := progress.stream.calls.length } } :=
  { refines with
    sound := refines.sound.enter ahead refines.broken filled
    region := rfl
    first := by
      intro _
      have known := refines.calls
      rw [unread, append_nil] at known
      show progress.stream.calls.length = reader.earlier.length
      rw [← length_map (f := Sent.known), known] }

include steady refines fits in
lemma seekStep_refines (outside : reader.inside = false) :
    Checked True (Advances grammar ended past reader) (seekStep grammar ended progress) := by
  obtain ⟨consumed, cut⟩ := refines.sound.split
  rw [seekStep]
  dsimp only
  refine .bind_ok cut ?_
  dsimp only
  rw [findMarker_eq steady]
  cases search : cutFirst grammar.anywhere reader.ahead with
  | some cut =>
    have whole := cutFirst_rebuild search
    have marked : grammar.Marked (cut.marker ++ cut.after) :=
      ⟨cut.marker, cutFirst_marker_mem search, prefix_append _ _⟩
    have filled : cut.marker ++ cut.after ≠ [] := by
      obtain ⟨marker, among, same⟩ := mem_map.mp (cutFirst_marker_mem search)
      rw [← same]
      exact append_ne_nil_of_left_ne_nil (steady.named marker (mem_filter.mp among).1) _
    obtain ⟨ahead, _, _, cur⟩ := Reader.say_frame cut.before reader
    dsimp only
    nth_rewrite 1 [whole]
    rw [splitAt_byteLength]
    refine ⟨(reader.say cut.before).enter (cut.marker ++ cut.after), (refines.say cut.before).enter
        (cur.trans (fits.outside outside)) (ahead.trans whole) filled,
      fits.enter outside cut.before marked, ?_, fun last rest => .seek outside search rest⟩
    rw [Reader.measure, Reader.measure, outside, whole, byteLength_append]
    show 3 * byteLength (cut.marker ++ cut.after) + 1 < _
    rw [if_neg Bool.false_ne_true]
    omega
  | none =>
    -- the part of the text that goes out and the part that is held back
    have parts : ∃ passed left keep, reader.ahead = passed ++ left ∧ (if ended then Found.hold 0
          else .hold (byteLength (held grammar.anywhere reader.ahead))) =
            .hold keep ∧ byteLength left = keep ∧
        Drains grammar ended reader ((reader.say passed).move left) := by
      cases fin : ended with
      | true =>
        exact ⟨reader.ahead, [], 0, (append_nil _).symm, rfl, rfl, .flush rfl outside search⟩
      | false => exact ⟨_, _, _, (settled_append_held _ _).symm, rfl, rfl, .hold rfl outside search⟩
    obtain ⟨passed, left, keep, whole, found, rfl, drains⟩ := parts
    dsimp only
    rw [found]
    have ready : u64Sub (byteLength reader.ahead) (byteLength left) = .ok (byteLength passed) := by
      rw [whole, byteLength_append, u64Sub_of_le (Nat.le_add_left _ _), Nat.add_sub_cancel]
    dsimp only
    refine .bind_ok ready ?_
    rw [splitAt_eq_ok.mpr ⟨whole, rfl⟩]
    obtain ⟨ahead, inside, _, _⟩ := Reader.say_frame passed reader
    exact ⟨(reader.say passed).move left,
      (refines.say passed).move (inside.trans outside) (ahead.trans whole),
      fits.say_move outside passed left, drains⟩

include steady refines fits in
lemma textStep_refines (inside : reader.inside = true)
    (scanned : grammar.scan reader.ahead ended = .text length) :
    Checked True (Advances grammar ended past reader)
      (textStep grammar format reader.ahead progress.stream.pos length progress) := by
  have marked := fits.marked inside
  have unread := fits.current_eq_nil steady inside ended
    (by rw [scanned]; intro _ _ never; cases never)
  obtain ⟨pos, boundary⟩ := steady.text _ _ _ marked scanned
  obtain ⟨passed, left, whole, rfl⟩ := isCharBoundary_iff.mp boundary
  have filled : passed ≠ [] := by
    rintro rfl
    exact lt_irrefl _ pos
  have unbegun : ¬ progress.stream.regionFirst < progress.stream.calls.length := by
    rw [refines.first inside, ← length_map (f := Sent.known), refines.calls, unread, append_nil]
    exact lt_irrefl _
  obtain ⟨ahead, _⟩ := Reader.say_frame passed reader
  have same := prose_samePlace passed progress
  rw [textStep]
  refine .bind (callsBeforeBreak_nil steady marked scanned) ?_
  rintro ⟨_, good⟩ rfl
  refine .bind_ok rfl ?_
  rw [if_neg unbegun, whole, release_eq filled]
  refine ⟨(reader.say passed).leave left,
    (refines.say passed).leave (ahead.trans whole) (by rw [same.pos]),
    fits.leave_text unread passed left, measure_leave _ filled whole _, ?_⟩
  exact fun last rest => .text inside unread scanned whole rest

include steady early refines fits in
lemma callsStep_refines (inside : reader.inside = true)
    (scanned : grammar.scan reader.ahead ended = .calls calls ending) :
    Checked True (Advances grammar ended past reader)
      (callsStep format ended reader.ahead progress.stream.pos calls ending progress) := by
  have marked := fits.marked inside
  have extends_ := fits.extends_ steady inside scanned
  have begun : progress.stream.calls.length - progress.stream.regionFirst =
      reader.current.length := by
    rw [refines.first inside, ← length_map (f := Sent.known),
      refines.calls, length_append, Nat.add_sub_cancel_left]
  have kept : ¬ calls.length < reader.current.length := Nat.not_lt_of_le extends_.length_le
  rw [callsStep]
  refine .bind_ok (u64Sub_of_le refines.sound.first) ?_
  rw [begun]
  refine .bind (sync_refines steady early refines fits inside scanned) ?_
  rintro synced ⟨same, met⟩
  dsimp only
  rw [if_neg kept]
  cases ending with
  | some length =>
    obtain ⟨positive, boundary⟩ := steady.closing _ _ _ _ marked scanned
    have final := steady.final _ _ _ _ marked scanned (.inr fun never => by cases never)
    obtain ⟨passed, left, whole, rfl⟩ := isCharBoundary_iff.mp boundary
    have filled : passed ≠ [] := by
      rintro rfl
      exact lt_irrefl _ positive
    rw [Option.filter_some, if_pos (decide_eq_true positive)]
    refine ⟨(reader.meet calls).leave left,
      met.leave whole (by rw [same.pos]), fits.leave_calls final left,
      measure_leave _ filled whole _, ?_⟩
    exact fun last rest => .closed inside scanned extends_ whole rest
  | none =>
    rw [Option.filter_none]
    cases fin : ended with
    | true =>
      subst fin
      have final := steady.final _ _ _ _ marked scanned (.inl rfl)
      have atEnd : byteLength synced.stream.text = synced.stream.pos + byteLength reader.ahead := by
        obtain ⟨consumed, text, pos⟩ := met.sound.placed
        rw [text, byteLength_append, pos]
        rfl
      exact ⟨(reader.meet calls).leave [], met.leave (append_nil _).symm atEnd,
        fits.leave_calls final [], .ended rfl inside scanned extends_⟩
    | false =>
      subst fin
      exact ⟨reader.meet calls, met, fits.meet inside scanned, .opened rfl inside scanned extends_⟩

include steady early refines fits in
/-- A round of `drain` is a step of the reader. -/
lemma drainStep_refines :
    Checked True (Advances grammar ended past reader)
      (drainStep grammar format ended progress) := by
  rw [drainStep]
  cases inside : reader.inside with
  | false =>
    rw [refines.closed inside]
    exact seekStep_refines steady refines fits inside
  | true =>
    obtain ⟨consumed, cut⟩ := refines.sound.split
    rw [refines.opened inside]
    dsimp only
    refine .bind_ok cut ?_
    rw [refines.broken]
    dsimp only
    cases scanned : grammar.scan reader.ahead ended with
    | pending =>
      cases fin : ended with
      | true =>
        subst fin
        exact absurd scanned (steady.decided _ (fits.marked inside))
      | false =>
        subst fin
        exact ⟨reader, refines, fits, .wait rfl inside scanned⟩
    | text length => exact textStep_refines steady refines fits inside scanned
    | calls calls ending => exact callsStep_refines steady early refines fits inside scanned

end Refined

include steady early in
/-- The loop of `drain` is a run of the reader. -/
lemma drain_refines (refines : Refines past reader progress) (fits : reader.Fits grammar)
    (enough : 3 * byteLength reader.ahead + 2 < rounds) :
    Checked True (fun last => ∃ later : Reader, Refines past later last ∧ later.Fits grammar ∧
          Drains grammar ended reader later)
      (drain grammar format ended rounds progress) := by
  have few : reader.measure < rounds := by
    rw [Reader.measure]
    split <;> omega
  refine drain_rule format ended (fun bound cur => ∃ later : Reader, later.measure = bound ∧
    Refines past later cur ∧ later.Fits grammar ∧ ∀ last, Drains grammar ended later last →
      Drains grammar ended reader last) ?_ few ⟨reader, rfl, refines, fits, fun _ drains => drains⟩
  rintro _ cur ⟨here, rfl, hereRefines, hereFits, before⟩
  refine (drainStep_refines steady early hereRefines hereFits).imp ?_
  rintro step ⟨later, stepRefines, stepFits, goes⟩
  split
  next again =>
    rw [if_pos again] at goes
    exact ⟨_, goes.1, later, rfl, stepRefines, stepFits, fun last drains =>
      before last (goes.2 last drains)⟩
  next final =>
    rw [if_neg final] at goes
    exact ⟨later, stepRefines, stepFits, before later goes⟩

variable {stream : ToolStream}

/-- Between two pieces only the text ahead is kept. -/
lemma compact_refines {out : List ToolEvent} (refines : Refines past reader ⟨stream, out⟩) :
    Checked True (fun next => Refines (past ++ out) reader ⟨next, []⟩) (compact stream) := by
  refine (compact_spec refines.sound).imp ?_
  rintro next ⟨rfl, sound⟩
  exact { refines with
    sound
    region := by
      have region := refines.region
      dsimp only at region ⊢
      rw [region]
      cases reader.inside <;> rfl
    said := by
      rw [append_nil]
      exact refines.said
    started := by
      rw [append_nil]
      exact refines.started }

/-- More text for the stream is more text for the reader. -/
lemma Refines.append (refines : Refines past reader ⟨stream, []⟩) (delta : Text) :
    Refines past (reader.append delta) ⟨{ stream with text := stream.text ++ delta }, []⟩ :=
  { refines with sound := refines.sound.grow delta }

include steady early in
lemma push_refines (refines : Refines past reader ⟨stream, []⟩) (fits : reader.Fits grammar)
    (delta : Text) (enough : 3 * byteLength (reader.ahead ++ delta) + 3 ≤ rounds) :
    Checked True (fun result => ∃ later : Reader,
        Refines (past ++ result.2) later ⟨result.1, []⟩ ∧ later.Fits grammar ∧
          Drains grammar false (reader.append delta) later)
      (push (some grammar) format rounds stream delta) := by
  rw [push]
  refine .bind (drain_refines steady early (refines.append delta) (fits.append delta) enough) ?_
  rintro drained ⟨later, drainedRefines, laterFits, drains⟩
  refine .bind (compact_refines drainedRefines) ?_
  intro last lastRefines
  exact ⟨later, lastRefines, laterFits, drains⟩

/-! ## Whole generations -/

lemma Refines.start : Refines [] Reader.start ⟨ToolStream.start, []⟩ where
  sound := Sound.start
  region := rfl
  broken := rfl
  calls := rfl
  first := nofun
  hold := rfl
  held := rfl
  said := rfl
  started := rfl

include steady in
/-- Without any text nothing happens. -/
lemma Drains.start : Drains grammar false (Reader.start.append []) Reader.start := by
  have missing : cutFirst grammar.anywhere [] = none := by
    rw [cutFirst, Option.map_eq_none_iff, longestPrefix_eq_none]
    intro text mem starts
    obtain ⟨marker, among, rfl⟩ := mem_map.mp mem
    exact steady.named marker (mem_filter.mp among).1 (prefix_nil.mp starts)
  have drains : Drains grammar false (Reader.start.append []) _ := .hold rfl rfl missing
  have settled_ : settled grammar.anywhere (Reader.start.append []).ahead = [] := take_nil
  have held_ : held grammar.anywhere (Reader.start.append []).ahead = [] := drop_nil
  rw [settled_, held_, Reader.say_nil] at drains
  exact drains

include steady early in
/-- After any pieces the reader is where draining all their text leads. -/
lemma pushAll_refines {before : Text} (refines : Refines past reader ⟨stream, []⟩)
    (fits : reader.Fits grammar) (drains : Drains grammar false (Reader.start.append before) reader)
    (pieces : List Text) (enough : 3 * byteLength (before ++ pieces.flatten) + 3 ≤ rounds) :
    Checked True (fun result => ∃ later : Reader,
        Refines (past ++ result.2) later ⟨result.1, []⟩ ∧ later.Fits grammar ∧
          Drains grammar false (Reader.start.append (before ++ pieces.flatten)) later)
      (pushAll (some grammar) format rounds stream pieces) := by
  induction pieces generalizing past reader stream before with
  | nil =>
    refine ⟨reader, ?_, fits, ?_⟩
    · rw [append_nil]
      exact refines
    · rw [flatten_nil, append_nil]
      exact drains
  | cons piece rest ih =>
    have less : byteLength reader.ahead ≤ byteLength before := drains.shorter
    rw [flatten_cons, ← append_assoc] at enough ⊢
    rw [pushAll]
    refine .bind (push_refines steady early refines fits piece
      (by simp only [byteLength_append] at enough ⊢; omega)) ?_
    rintro ⟨next, sent⟩ ⟨middle, nextRefines, nextFits, further⟩
    dsimp only at nextRefines ⊢
    have joined : Drains grammar false ((Reader.start.append before).append piece) middle :=
      drains.append steady (fun never => by cases never) further
    refine .bind (ih nextRefines nextFits joined enough) ?_
    rintro ⟨last, later⟩ ⟨final, lastRefines, lastFits, whole⟩
    refine ⟨final, ?_, lastFits, whole⟩
    rw [append_assoc] at lastRefines
    exact lastRefines

/-- A call with its final arguments. -/
def Known.parsed (known : Known) : ParsedToolCall where
  name := known.name
  arguments := known.done.getD []
  id := known.id

lemma parsedCalls_eq {calls : List Known} (same : stream.calls.map Sent.known = calls)
    (final : ∀ call ∈ calls, call.done ≠ none) : stream.parsedCalls = calls.map Known.parsed := by
  subst same
  rw [ToolStream.parsedCalls, map_map]
  apply map_congr_left
  intro sent mem
  have done := final sent.known (mem_map_of_mem mem)
  cases here : sent.done with
  | none => exact absurd here done
  | some args => simp [Known.parsed, Sent.known, here]

/-- Whether nothing but whitespace has been said and no call made: then the
whitespace is the answer. -/
def Reader.answer (reader : Reader) : Text :=
  if reader.earlier = [] then reader.said ++ reader.held else reader.said

include steady early in
lemma finish_refines (refines : Refines past reader ⟨stream, []⟩) (fits : reader.Fits grammar)
    (enough : 3 * byteLength reader.ahead + 3 ≤ rounds) :
    Checked True (fun result => ∃ later : Reader, Drains grammar true reader later ∧
          result.1.parsedCalls = later.earlier.map Known.parsed ∧
          saidText (past ++ result.2) = later.answer ∧
          startedNames (past ++ result.2) = later.started)
      (finish (some grammar) format rounds stream) := by
  rw [finish]
  refine .bind (drain_refines steady early refines fits enough) ?_
  rintro drained ⟨later, drainedRefines, laterFits, drains⟩
  refine .bind (compact_refines drainedRefines) ?_
  intro last lastRefines
  have known := lastRefines.calls
  rw [laterFits.outside drains.outside_of_finished, append_nil] at known
  have said := lastRefines.said
  have started := lastRefines.started
  rw [append_nil] at said started
  have silent : last.calls.isEmpty = true ↔ later.earlier = [] := by
    rw [List.isEmpty_iff, ← known]
    exact map_eq_nil_iff.symm
  refine ⟨later, drains, parsedCalls_eq known laterFits.final, ?_, ?_⟩
  · show saidText (past ++ if _ then _ else _) = _
    rw [Reader.answer]
    split
    next silence =>
      rw [if_pos (silent.mp silence), saidText_append, saidText_pushText,
        ← append_assoc, ← saidText_append, said, lastRefines.held]
    next spoken =>
      rw [if_neg fun empty => spoken (silent.mpr empty)]
      exact said
  · show startedNames (past ++ if _ then _ else _) = _
    split
    · rw [startedNames_append, startedNames_pushText, ← startedNames_append]
      exact started
    · exact started

include steady early in
/-- A whole generation is a run of the reader over its whole text. -/
lemma feed_refines (pieces : List Text) (enough : 3 * byteLength pieces.flatten + 3 ≤ rounds) :
    Checked True (fun result => ∃ middle last : Reader,
        Drains grammar false (Reader.start.append pieces.flatten) middle ∧
          Drains grammar true middle last ∧
          result.1.parsedCalls = last.earlier.map Known.parsed ∧
          saidText result.2 = last.answer ∧
          startedNames result.2 = last.started)
      (feed (some grammar) format rounds pieces) := by
  have idle := Drains.start steady
  rw [feed]
  refine .bind (pushAll_refines steady early Refines.start Reader.Fits.start idle pieces enough) ?_
  rintro ⟨stream, sent⟩ ⟨middle, refines, fits, drains⟩
  have less : byteLength middle.ahead ≤ byteLength pieces.flatten := drains.shorter
  refine .bind (finish_refines steady early refines fits (by omega)) ?_
  rintro ⟨final, flushed⟩ ⟨last, ends, calls, said, started⟩
  exact ⟨middle, last, drains, ends, calls, said, started⟩

/-- Pushing the pieces and finishing, and pushing the whole text and
finishing, both return, and give the same calls, the same prose and the same
names of started calls. -/
def StreamsLikeWhole (grammar : Grammar) (format : ToolCallFormat)
    (rounds : Nat) (pieces : List Text) : Prop :=
  ∃ stream events whole wholeEvents,
    feed (some grammar) (some format) rounds pieces = .ok (stream, events) ∧
      feed (some grammar) (some format) rounds [pieces.flatten] = .ok (whole, wholeEvents) ∧
      stream.parsedCalls = whole.parsedCalls ∧
      saidText events = saidText wholeEvents ∧
      startedNames events = startedNames wholeEvents

include steady in
/-- A steady grammar streams any pieces like the whole text. -/
lemma Grammar.Steady.streamsLikeWhole {format : ToolCallFormat}
    (early : format.maySupplyLateId = false) (pieces : List Text)
    (enough : 3 * byteLength pieces.flatten + 3 ≤ rounds) :
    StreamsLikeWhole grammar format rounds pieces := by
  have joined : [pieces.flatten].flatten = pieces.flatten := by rw [flatten_singleton]
  have given : (some format).any ToolCallFormat.maySupplyLateId = false := early
  obtain ⟨⟨stream, events⟩, fed, middle, last, drains, ends, calls, said,
    started⟩ := (feed_refines steady given pieces enough).exists_of_safe
      trivial
  obtain ⟨⟨whole, wholeEvents⟩, fedWhole, middleToo, lastToo, drainsToo,
    endsToo, callsToo, saidToo, startedToo⟩ :=
      (feed_refines steady given [pieces.flatten] (joined.symm ▸ enough)).exists_of_safe trivial
  rw [joined] at drainsToo
  cases drains.unique drainsToo
  cases ends.unique endsToo
  exact ⟨stream, events, whole, wholeEvents, fed, fedWhole,
    calls.trans callsToo.symm, said.trans saidToo.symm, started.trans startedToo.symm⟩

end Steady

end Joshua
