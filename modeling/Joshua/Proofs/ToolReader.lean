/-
Module: Joshua.Proofs.ToolReader
Purpose: What a tool-call stream does for a grammar that never takes a call
  back, without offsets, buffers and argument deltas: an abstract reader whose
  result does not depend on how its text is cut.
Trusted boundary: none
-/
import Joshua.Proofs.ToolStreamPlace

namespace Joshua
open Joshua.Foundation List

/-! ## Calls as far as they are known -/

/-- A call without the arguments streamed so far. -/
structure Known where
  id : Option Text
  name : Text
  done : Option Text
deriving Repr, DecidableEq

def PartialCall.known (call : PartialCall) : Known :=
  ⟨call.id, call.name, call.done⟩

def Sent.known (sent : Sent) : Known :=
  ⟨sent.id, sent.name, sent.done⟩

/-- A later reading gives the calls known before, with the same ids and
names and with final arguments kept, and perhaps more calls. -/
def Extends : List Known → List PartialCall → Prop
  | [], _ => True
  | _ :: _, [] => False
  | old :: earlier, call :: calls =>
    call.id = old.id ∧ call.name = old.name ∧
      (∀ args, old.done = some args → call.done = some args) ∧
      Extends earlier calls

variable {calls : List PartialCall} {known : List Known}

lemma Extends.length_le (extends_ : Extends known calls) : known.length ≤ calls.length := by
  induction known generalizing calls with
  | nil => exact Nat.zero_le _
  | cons old earlier ih =>
    cases calls with
    | nil => exact extends_.elim
    | cons call calls => exact Nat.succ_le_succ (ih extends_.2.2.2)

lemma Extends.names (extends_ : Extends known calls) :
    (calls.take known.length).map PartialCall.name = known.map Known.name := by
  induction known generalizing calls with
  | nil => rfl
  | cons old earlier ih =>
    cases calls with
    | nil => exact extends_.elim
    | cons call calls =>
      rw [length_cons, take_succ_cons, map_cons, map_cons, extends_.2.1, ih extends_.2.2.2]

lemma Extends.trans {middle later : List PartialCall} (first : Extends known middle)
    (second : Extends (middle.map PartialCall.known) later) : Extends known later := by
  induction known generalizing middle later with
  | nil => trivial
  | cons old earlier ih =>
    cases middle with
    | nil => exact first.elim
    | cons call middle =>
      cases later with
      | nil => exact second.elim
      | cons last later =>
        refine ⟨second.1.trans first.1, second.2.1.trans first.2.1, ?_, ih first.2.2.2 second.2.2.2⟩
        intro args final
        exact second.2.2.1 args (first.2.2.1 args final)

/-! ## Grammars that never take a call back -/

/-- What the scan of a region must become when the region grows. -/
def Scan.Grows : Scan → Scan → Prop
  | .pending, _ => True
  | .text length, later => later = .text length
  | .calls found (some length), later => later = .calls found (some length)
  | .calls found none, later =>
    found = [] ∨ ∃ more ending, later = .calls more ending ∧
      Extends (found.map PartialCall.known) more

/-- A region that starts with a marker. -/
def Grammar.Marked (grammar : Grammar) (region : Text) : Prop :=
  ∃ marker ∈ grammar.anywhere, marker <+: region

/-- A grammar whose scans can be relied on while a region grows and when
decoding ends. -/
structure Grammar.Steady (grammar : Grammar) : Prop where
  anywhere : ∀ marker ∈ grammar.markers, marker.leading = false
  named : ∀ marker ∈ grammar.markers, marker.text ≠ []
  apart : Apart grammar.anywhere
  grows : ∀ region tail finished, grammar.Marked region → Scan.Grows (grammar.scan region false)
      (grammar.scan (region ++ tail) finished)
  decided : ∀ region, grammar.Marked region → grammar.scan region true ≠ .pending
  text : ∀ region finished length, grammar.Marked region →
    grammar.scan region finished = .text length →
    0 < length ∧ isCharBoundary region length = true
  closing : ∀ region finished calls length, grammar.Marked region →
    grammar.scan region finished = .calls calls (some length) →
    0 < length ∧ isCharBoundary region length = true
  names : ∀ region finished calls ending, grammar.Marked region →
    grammar.scan region finished = .calls calls ending →
    ∀ call ∈ calls, call.name ≠ []
  final : ∀ region finished calls ending, grammar.Marked region →
    grammar.scan region finished = .calls calls ending →
    finished = true ∨ ending ≠ none → ∀ call ∈ calls, call.done ≠ none
  foreign : ∀ region, grammar.Marked region → ¬ "[TOOL_CALLS]".toList <+: trimStart region

lemma Extends.refl (calls : List PartialCall) : Extends (calls.map PartialCall.known) calls := by
  induction calls with
  | nil => trivial
  | cons call calls ih => exact ⟨rfl, rfl, fun _ final => final, ih⟩

variable {grammar : Grammar}

/-- Calls read before the end are still there at the end. -/
lemma Grammar.Steady.ends (steady : grammar.Steady) {region : Text} {ending : Option Nat}
    (marked : grammar.Marked region) (scanned : grammar.scan region false = .calls calls ending) :
    calls = [] ∨ ∃ more last, grammar.scan region true = .calls more last ∧
      Extends (calls.map PartialCall.known) more := by
  have later := steady.grows region [] true marked
  rw [scanned, append_nil] at later
  cases ending with
  | none => exact later
  | some length => exact .inr ⟨calls, some length, later, .refl calls⟩

lemma Grammar.Marked.extend {region : Text} (marked : grammar.Marked region) (tail : Text) :
    grammar.Marked (region ++ tail) := by
  obtain ⟨marker, mem, starts⟩ := marked
  exact ⟨marker, mem, starts.trans (prefix_append _ _)⟩

/-! ## The abstract reader -/

/-- The text ahead, whether a region is open at its start, the calls of the
regions before and of this one, whitespace held back, and what has been said
and started. -/
structure Reader where
  ahead : Text
  inside : Bool
  earlier : List Known
  current : List Known
  hold : Bool
  held : Text
  said : Text
  started : List Text

namespace Reader

def start : Reader where
  ahead := []
  inside := false
  earlier := []
  current := []
  hold := true
  held := []
  said := []
  started := []

def append (reader : Reader) (text : Text) : Reader :=
  { reader with ahead := reader.ahead ++ text }

/-- Prose, with whitespace before any other prose held back. -/
def say (text : Text) (reader : Reader) : Reader :=
  if text = [] then reader
  else if reader.hold then
    if trim text = [] then { reader with held := reader.held ++ text }
    else { reader with
      hold := false
      held := []
      said := reader.said ++ (reader.held ++ text) }
  else { reader with said := reader.said ++ text }

/-- A reading of the open region's calls. -/
def meet (calls : List PartialCall) (reader : Reader) : Reader :=
  let new := calls.drop reader.current.length
  { reader with
    current := calls.map PartialCall.known
    hold := if new = [] then reader.hold else true
    held := if new = [] then reader.held else []
    started := reader.started ++ new.map PartialCall.name }

/-- A region is opened at `ahead`. -/
def enter (ahead : Text) (reader : Reader) : Reader :=
  { reader with ahead := ahead, inside := true }

/-- The region is left; `ahead` follows. -/
def leave (ahead : Text) (reader : Reader) : Reader :=
  { reader with
    ahead := ahead
    inside := false
    earlier := reader.earlier ++ reader.current
    current := [] }

/-- Text ahead counts three times, as for a stream. -/
def measure (reader : Reader) : Nat :=
  3 * byteLength reader.ahead + if reader.inside then 1 else 2

/-- Only the text ahead is different. -/
def move (ahead : Text) (reader : Reader) : Reader :=
  { reader with ahead := ahead }

section
variable (reader : Reader)

@[simp]
lemma say_nil : reader.say [] = reader :=
  if_pos rfl

lemma append_enter (ahead tail : Text) : (reader.enter ahead).append tail =
      (reader.append tail).enter (ahead ++ tail) :=
  rfl

lemma append_leave (ahead tail : Text) : (reader.leave ahead).append tail =
      (reader.append tail).leave (ahead ++ tail) :=
  rfl

lemma append_meet (calls : List PartialCall) (tail : Text) :
    (reader.meet calls).append tail = (reader.append tail).meet calls :=
  rfl

end

/-- Saying something changes neither the place nor the calls. -/
lemma say_frame (text : Text) (reader : Reader) : (reader.say text).ahead = reader.ahead ∧
      (reader.say text).inside = reader.inside ∧
      (reader.say text).earlier = reader.earlier ∧
      (reader.say text).current = reader.current := by
  rw [say]
  split_ifs <;> exact ⟨rfl, rfl, rfl, rfl⟩

lemma say_move (text ahead : Text) (reader : Reader) :
    (reader.move ahead).say text = (reader.say text).move ahead := by
  rw [say, say, move]
  split_ifs <;> rfl

lemma append_say (text tail : Text) (reader : Reader) :
    (reader.say text).append tail = (reader.append tail).say text := by
  rw [append, (say_frame text reader).1]
  exact (say_move text _ reader).symm

/-- Prose in two parts is prose. -/
lemma say_say (first second : Text) (reader : Reader) :
    (reader.say first).say second = reader.say (first ++ second) := by
  by_cases empty : first = []
  · subst empty
    rw [nil_append, say_nil]
  by_cases nothing : second = []
  · subst nothing
    rw [append_nil, say_nil]
  have whole : first ++ second ≠ [] := by simp [empty]
  obtain ⟨ahead, inside, earlier, cur, hold, held, said, started⟩ := reader
  cases hold with
  | false => simp [say, empty, nothing]
  | true =>
    by_cases blank : trim first = []
    · by_cases white : trim second = []
      · have both := trim_append_eq_nil.mpr ⟨blank, white⟩
        simp [say, empty, nothing, blank, white, both]
      · have mixed : trim (first ++ second) ≠ [] := fun all => white (trim_append_eq_nil.mp all).2
        simp [say, empty, nothing, blank, white, mixed]
    · have mixed : trim (first ++ second) ≠ [] := fun all => blank (trim_append_eq_nil.mp all).1
      simp [say, empty, nothing, blank, mixed]

/-- Only the last of two readings counts. -/
lemma meet_meet {more : List PartialCall} {reader : Reader}
    (first : reader.current.length ≤ calls.length)
    (second : Extends (calls.map PartialCall.known) more) :
    (reader.meet calls).meet more = reader.meet more := by
  have longer := second.length_le
  have names := second.names
  rw [length_map] at longer names
  rw [map_map] at names
  obtain ⟨ahead, inside, earlier, current, hold, held, said, started⟩ := reader
  dsimp only at first
  have split : more.drop current.length = (more.take calls.length).drop current.length ++
        more.drop calls.length := by
    rw [← drop_append_of_le_length (by rw [length_take]; omega), take_append_drop]
  have same : ((more.take calls.length).drop current.length).map
      PartialCall.name = (calls.drop current.length).map PartialCall.name := by
    rw [map_drop, names, map_drop]
    rfl
  have empty : (more.take calls.length).drop current.length = [] ↔
      calls.drop current.length = [] := by
    rw [← map_eq_nil_iff (f := PartialCall.name), same, map_eq_nil_iff]
  simp only [meet, length_map, split, map_append, same, append_eq_nil_iff, empty, append_assoc]
  by_cases one : calls.drop current.length = [] <;>
    by_cases two : more.drop calls.length = [] <;> simp [one, two]

/-- A reading without calls when there were none. -/
lemma meet_nil {reader : Reader} (unread : reader.current = []) : reader.meet [] = reader := by
  obtain ⟨ahead, inside, earlier, current, hold, held, said, started⟩ := reader
  dsimp only at unread
  simp [meet, unread]

end Reader

/-! ## Draining -/

open Reader in
/-- What draining makes of a reader; `finished` when decoding has ended. -/
inductive Drains (grammar : Grammar) (finished : Bool) : Reader → Reader → Prop
  | seek {reader last : Reader} {cut : Cut Char}
      (outside : reader.inside = false)
      (found : cutFirst grammar.anywhere reader.ahead = some cut)
      (rest : Drains grammar finished
        ((reader.say cut.before).enter (cut.marker ++ cut.after)) last) :
      Drains grammar finished reader last
  | hold {reader : Reader} (going : finished = false)
      (outside : reader.inside = false)
      (missing : cutFirst grammar.anywhere reader.ahead = none) :
      Drains grammar finished reader
        ((reader.say (settled grammar.anywhere reader.ahead)).move
          (held grammar.anywhere reader.ahead))
  | flush {reader : Reader} (isOver : finished = true)
      (outside : reader.inside = false)
      (missing : cutFirst grammar.anywhere reader.ahead = none) :
      Drains grammar finished reader ((reader.say reader.ahead).move [])
  | wait {reader : Reader} (going : finished = false)
      (inside : reader.inside = true)
      (scanned : grammar.scan reader.ahead finished = .pending) :
      Drains grammar finished reader reader
  | text {reader last : Reader} {passed left : Text}
      (inside : reader.inside = true) (unread : reader.current = [])
      (scanned : grammar.scan reader.ahead finished = .text (byteLength passed))
      (whole : reader.ahead = passed ++ left)
      (rest : Drains grammar finished ((reader.say passed).leave left) last) :
      Drains grammar finished reader last
  | closed {reader last : Reader} {calls : List PartialCall}
      {passed left : Text} (inside : reader.inside = true)
      (scanned : grammar.scan reader.ahead finished = .calls calls (some (byteLength passed)))
      (extends_ : Extends reader.current calls)
      (whole : reader.ahead = passed ++ left)
      (rest : Drains grammar finished ((reader.meet calls).leave left) last) :
      Drains grammar finished reader last
  | opened {reader : Reader} {calls : List PartialCall}
      (going : finished = false) (inside : reader.inside = true)
      (scanned : grammar.scan reader.ahead finished = .calls calls none)
      (extends_ : Extends reader.current calls) :
      Drains grammar finished reader (reader.meet calls)
  | ended {reader : Reader} {calls : List PartialCall}
      (isOver : finished = true) (inside : reader.inside = true)
      (scanned : grammar.scan reader.ahead finished = .calls calls none)
      (extends_ : Extends reader.current calls) :
      Drains grammar finished reader ((reader.meet calls).leave [])

namespace Drains

variable {grammar : Grammar} {finished : Bool}

lemma cut_eq {first second third fourth : Text} (same : byteLength first = byteLength third)
    (whole : first ++ second = third ++ fourth) : first = third ∧ second = fourth := by
  have left := splitAt_byteLength first second
  have right := splitAt_byteLength third fourth
  rw [whole, same, right] at left
  cases left
  exact ⟨rfl, rfl⟩

variable {reader last : Reader}

/-- Draining has one result. -/
lemma unique {first second : Reader} (one : Drains grammar finished reader first)
    (other : Drains grammar finished reader second) : first = second := by
  induction one with
  | seek outside found rest ih =>
    cases other with
    | seek _ foundToo restToo =>
      cases found.symm.trans foundToo
      exact ih restToo
    | _ => simp_all
  | hold | flush | wait => cases other <;> simp_all
  | text inside unread scanned whole rest ih =>
    cases other with
    | text _ _ scannedToo wholeToo restToo =>
      have same := Scan.text.inj (scanned.symm.trans scannedToo)
      obtain ⟨rfl, rfl⟩ := cut_eq same (whole.symm.trans wholeToo)
      exact ih restToo
    | _ => simp_all
  | closed inside scanned extends_ whole rest ih =>
    cases other with
    | closed _ scannedToo _ wholeToo restToo =>
      obtain ⟨rfl, same⟩ := Scan.calls.inj (scanned.symm.trans scannedToo)
      obtain ⟨rfl, rfl⟩ := cut_eq (Option.some.inj same) (whole.symm.trans wholeToo)
      exact ih restToo
    | _ => simp_all
  | opened going inside scanned extends_ =>
    cases other with
    | opened _ _ scannedToo =>
      cases scanned.symm.trans scannedToo
      rfl
    | _ => simp_all
  | ended isOver inside scanned extends_ =>
    cases other with
    | ended _ _ scannedToo =>
      cases scanned.symm.trans scannedToo
      rfl
    | _ => simp_all

/-- Draining only consumes. -/
lemma shorter (drains : Drains grammar finished reader last) :
    byteLength last.ahead ≤ byteLength reader.ahead := by
  induction drains with
  | @seek reader last cut _ found _ ih =>
    refine ih.trans ?_
    rw [cutFirst_rebuild found, byteLength_append]
    exact Nat.le_add_left _ _
  | @hold reader =>
    show byteLength (held _ _) ≤ _
    rw [← settled_append_held grammar.anywhere reader.ahead, byteLength_append, settled_append_held]
    exact Nat.le_add_left _ _
  | flush => exact Nat.zero_le _
  | wait => exact le_rfl
  | text _ _ _ whole _ ih | closed _ _ _ whole _ ih =>
    refine ih.trans ?_
    rw [whole, byteLength_append]
    exact Nat.le_add_left _ _
  | opened => exact le_rfl
  | ended => exact Nat.zero_le _

/-- At the end no region is open. -/
lemma outside_of_finished (drains : Drains grammar true reader last) : last.inside = false := by
  induction drains with
  | hold going => cases going
  | flush _ outside => exact (Reader.say_frame _ _).2.1.trans outside
  | wait going | opened going => cases going
  | ended => rfl
  | seek _ _ _ ih | text _ _ _ _ _ ih | closed _ _ _ _ _ ih => exact ih

/-- Draining what has been drained and more text is draining it all. -/
lemma append (steady : grammar.Steady) {middle : Reader} {tail : Text}
    (marked : reader.inside = true → grammar.Marked reader.ahead)
    (first : Drains grammar false reader middle)
    (second : Drains grammar false (middle.append tail) last) :
    Drains grammar false (reader.append tail) last := by
  induction first with
  | @seek reader middle cut outside found rest ih =>
    refine .seek outside (cutFirst_append steady.apart found tail) ?_
    have entered := ih (fun _ => ⟨cut.marker, cutFirst_marker_mem found, prefix_append _ _⟩) second
    rw [Reader.append_enter, Reader.append_say, append_assoc] at entered
    exact entered
  | @hold reader going outside missing =>
    -- what was held back and the new text lie ahead
    have shape : ∀ text, ((reader.say (settled grammar.anywhere
        reader.ahead)).move (held grammar.anywhere reader.ahead)).append
          text = ((reader.append text).say (settled grammar.anywhere
        reader.ahead)).move (held grammar.anywhere reader.ahead ++ text) := by
      intro text
      rw [← Reader.append_say]
      rfl
    rw [shape] at second
    have search := cutFirst_hold missing tail
    have outsideToo : ((reader.append tail).say (settled grammar.anywhere
        reader.ahead)).inside = false :=
      (Reader.say_frame _ _).2.1.trans outside
    cases second with
    | seek _ found rest =>
      rw [Reader.move] at found
      rw [found] at search
      refine .seek outside search ?_
      rw [Reader.say_move] at rest
      rw [Cut.prepend, ← Reader.say_say]
      exact rest
    | hold _ _ still =>
      rw [Reader.move] at still
      rw [still] at search
      have kept : Drains grammar false (reader.append tail) _ := .hold rfl outside search
      rw [Reader.append, settled_append, held_append, ← Reader.say_say] at kept
      rw [Reader.say_move]
      exact kept
    | flush isOver => cases isOver
    | wait _ inside | text inside | closed inside | opened _ inside =>
      cases outsideToo.symm.trans inside
    | ended isOver => cases isOver
  | flush isOver => cases isOver
  | wait => exact second
  | @text reader middle passed left inside unread scanned whole rest ih =>
    have later := steady.grows reader.ahead tail false (marked inside)
    rw [scanned] at later
    have ahead : (reader.append tail).ahead = passed ++ (left ++ tail) := by
      rw [Reader.append, whole, append_assoc]
    refine .text inside unread later ahead ?_
    have left_ := ih (fun never => by cases never) second
    rw [Reader.append_leave, Reader.append_say] at left_
    exact left_
  | @closed reader middle calls passed left inside scanned extends_ whole rest ih =>
    have later := steady.grows reader.ahead tail false (marked inside)
    rw [scanned] at later
    have ahead : (reader.append tail).ahead = passed ++ (left ++ tail) := by
      rw [Reader.append, whole, append_assoc]
    refine .closed inside later extends_ ahead ?_
    exact ih (fun never => by cases never) second
  | @opened reader calls going inside scanned extends_ =>
    have later := steady.grows reader.ahead tail false (marked inside)
    rw [scanned] at later
    rcases later with empty | ⟨more, ending, longer, grown⟩
    · -- nothing had been read, so the reader has not changed
      subst empty
      have nothing : reader.current = [] :=
        eq_nil_of_length_eq_zero (Nat.le_zero.mp extends_.length_le)
      rw [Reader.meet_nil nothing] at second
      exact second
    · have both : ((reader.append tail).meet calls).meet more = (reader.append tail).meet more :=
        Reader.meet_meet extends_.length_le grown
      have extended := extends_.trans grown
      rw [Reader.append_meet] at second
      cases second with
      | seek outside | hold _ outside => cases outside.symm.trans inside
      | flush isOver => cases isOver
      | wait _ _ scannedToo | text _ _ scannedToo => cases longer.symm.trans scannedToo
      | closed _ scannedToo _ whole rest =>
        cases longer.symm.trans scannedToo
        rw [both] at rest
        exact .closed inside scannedToo extended whole rest
      | opened _ _ scannedToo =>
        cases longer.symm.trans scannedToo
        rw [both]
        exact .opened rfl inside scannedToo extended
      | ended isOver => cases isOver
  | ended isOver => cases isOver

end Drains

/-! ## Readers that can occur -/

/-- The calls of the open region come from a reading of a part of it, and
those of the regions before are final. -/
structure Reader.Fits (grammar : Grammar) (reader : Reader) : Prop where
  outside : reader.inside = false → reader.current = []
  marked : reader.inside = true → grammar.Marked reader.ahead
  known : reader.current = [] ∨ ∃ front tail calls,
    reader.ahead = front ++ tail ∧ grammar.Marked front ∧
      grammar.scan front false = .calls calls none ∧
      calls.map PartialCall.known = reader.current
  final : ∀ call ∈ reader.earlier, call.done ≠ none

namespace Reader.Fits

variable {grammar : Grammar} {reader : Reader} {finished : Bool}

lemma start : Reader.start.Fits grammar where
  outside := fun _ => rfl
  marked := nofun
  known := .inl rfl
  final := nofun

lemma append (fits : reader.Fits grammar) (text : Text) : (reader.append text).Fits grammar where
  outside := fits.outside
  marked := fun inside => (fits.marked inside).extend text
  known := by
    rcases fits.known with unread | ⟨front, tail, calls, whole, rest⟩
    · exact .inl unread
    · exact .inr ⟨front, tail ++ text, calls, by rw [Reader.append, whole, append_assoc], rest⟩
  final := fits.final

/-- The open region still reads as the calls known so far, and perhaps
more. -/
lemma reading (steady : grammar.Steady) (fits : reader.Fits grammar)
    (inside : reader.inside = true) (finished : Bool) :
    reader.current = [] ∨ ∃ calls ending, grammar.scan reader.ahead finished = .calls calls ending ∧
        Extends reader.current calls := by
  rcases fits.known with unread | ⟨front, tail, calls, whole, marked, scanned, same⟩
  · exact .inl unread
  · have later := steady.grows front tail false marked
    rw [scanned, ← whole] at later
    rcases later with empty | ⟨more, ending, longer, grown⟩
    · subst empty
      exact .inl same.symm
    · rw [same] at grown
      cases finished with
      | false => exact .inr ⟨more, ending, longer, grown⟩
      | true =>
        rcases steady.ends (fits.marked inside) longer with
          empty | ⟨last, final, ended, extends_⟩
        · subst empty
          exact .inl (eq_nil_of_length_eq_zero (Nat.le_zero.mp grown.length_le))
        · exact .inr ⟨last, final, ended, grown.trans extends_⟩

lemma extends_ (steady : grammar.Steady) (fits : reader.Fits grammar)
    (inside : reader.inside = true) {calls : List PartialCall} {ending : Option Nat}
    (scanned : grammar.scan reader.ahead finished = .calls calls ending) :
    Extends reader.current calls := by
  rcases fits.reading steady inside finished with
    empty | ⟨more, last, same, extends_⟩
  · rw [empty]
    trivial
  · rw [scanned] at same
    cases same
    exact extends_

lemma current_eq_nil (steady : grammar.Steady) (fits : reader.Fits grammar)
    (inside : reader.inside = true) (finished : Bool)
    (scanned : ∀ calls ending, grammar.scan reader.ahead finished ≠ .calls calls ending) :
    reader.current = [] := by
  rcases fits.reading steady inside finished with
    none | ⟨calls, ending, same, _⟩
  · exact none
  · exact absurd same (scanned calls ending)

section
variable (fits : reader.Fits grammar)
include fits

lemma say_move (outside : reader.inside = false) (text ahead : Text) :
    ((reader.say text).move ahead).Fits grammar := by
  obtain ⟨_, inside, earlier, cur⟩ := Reader.say_frame text reader
  constructor
  case outside => exact fun _ => cur.trans (fits.outside outside)
  case marked =>
    intro never
    cases outside.symm.trans (inside.symm.trans never)
  case known => exact .inl (cur.trans (fits.outside outside))
  case final => exact earlier ▸ fits.final

lemma enter (outside : reader.inside = false) (text : Text) {ahead : Text}
    (marked : grammar.Marked ahead) : ((reader.say text).enter ahead).Fits grammar := by
  obtain ⟨_, _, earlier, cur⟩ := Reader.say_frame text reader
  constructor
  case outside => nofun
  case marked => exact fun _ => marked
  case known => exact .inl (cur.trans (fits.outside outside))
  case final => exact earlier ▸ fits.final

lemma leave_text (unread : reader.current = [])
    (text ahead : Text) : ((reader.say text).leave ahead).Fits grammar := by
  obtain ⟨_, _, earlier, current⟩ := Reader.say_frame text reader
  constructor
  case outside => exact fun _ => rfl
  case marked => nofun
  case known => exact .inl rfl
  case final =>
    show ∀ call ∈ (reader.say text).earlier ++ (reader.say text).current, _
    rw [earlier, current, unread, append_nil]
    exact fits.final

variable {calls : List PartialCall}

lemma leave_calls (final : ∀ call ∈ calls, call.done ≠ none) (ahead : Text) :
    ((reader.meet calls).leave ahead).Fits grammar where
  outside := fun _ => rfl
  marked := nofun
  known := .inl rfl
  final := forall_mem_append.mpr ⟨fits.final, forall_mem_map.mpr final⟩

lemma meet (inside : reader.inside = true)
    (scanned : grammar.scan reader.ahead false = .calls calls none) :
    (reader.meet calls).Fits grammar where
  outside := fun never => by cases inside.symm.trans never
  marked := fits.marked
  known := .inr ⟨reader.ahead, [], calls, (append_nil _).symm, fits.marked inside, scanned, rfl⟩
  final := fits.final

end

end Reader.Fits

end Joshua
