/-
Module: Joshua.Model.ToolJson
Purpose: Reading JSON that is still being generated: how far a value runs, and
  raw arguments up to the marker that closes them; the section-driven
  tool-call formats, with Kimi K2's and DeepSeek V3's way of writing one call.
Trusted boundary: re-serialising a complete value is the JSON library's and
  is the parameter `canonical`
-/
import Joshua.Model.ToolStream

namespace Joshua
open Joshua.Foundation List

section

/-!
An offset of the source into a text is given here by the text from there on,
and `Json::Done`, `Json::Partial` and `Json::Bad` are the outcomes of a reader
of a text that is still arriving.
-/

/-- How far one JSON value at the start of a text runs. -/
abbrev JsonScan := Outcome Char Unit

def isJsonSpace (c : Char) : Bool :=
  c = ' ' || c = '\t' || c = '\n' || c = '\r'

/-- `skip_ws`. -/
def skipWs (text : Text) : Text :=
  text.dropWhile isJsonSpace

def isDigit (c : Char) : Bool :=
  '0' ≤ c && c ≤ '9'

def isHexDigit (c : Char) : Bool :=
  isDigit c || ('a' ≤ c && c ≤ 'f') || ('A' ≤ c && c ≤ 'F')

/-! ## Strings, numbers and words -/

/-- Where a string literal is being read: between characters, after a
backslash, or before so many more digits of a `\u` escape and one. -/
inductive StringPlace
  | plain
  | escape
  | hex (more : Nat)

/-- `scan_string`, one character at a time. -/
def scanStringAt : StringPlace → Text → JsonScan
  | _, [] => .wait
  | .plain, c :: rest =>
    if c = '"' then .done () rest
    else if c = '\\' then scanStringAt .escape rest
    else if c.toNat ≤ 0x1f then .fail
    else scanStringAt .plain rest
  | .escape, c :: rest =>
    if c = 'u' then scanStringAt (.hex 3) rest
    else if c ∈ ['"', '\\', '/', 'b', 'f', 'n', 'r', 't'] then
      scanStringAt .plain rest
    else .fail
  | .hex more, c :: rest =>
    if isHexDigit c then
      match more with
      | 0 => scanStringAt .plain rest
      | more + 1 => scanStringAt (.hex more) rest
    else .fail

/-- A string literal from just after its opening quote. -/
def scanString (text : Text) : JsonScan :=
  scanStringAt .plain text

/-- A number that runs to the end of the text may go on. -/
def numberEnd (rest : Text) : JsonScan :=
  if rest = [] then .wait else .done () rest

/-- At least one digit, and what follows the digits. -/
def scanDigits (text : Text) (next : Text → JsonScan) : JsonScan :=
  match text with
  | [] => .wait
  | c :: rest => if isDigit c then next (rest.dropWhile isDigit) else .fail

def dropSign : Text → Text
  | c :: rest => if c = '+' || c = '-' then rest else c :: rest
  | [] => []

def scanExponent (rest : Text) : JsonScan :=
  match rest with
  | c :: more =>
    if c = 'e' || c = 'E' then scanDigits (dropSign more) numberEnd
    else numberEnd rest
  | [] => .wait

def scanFraction (rest : Text) : JsonScan :=
  match rest with
  | c :: more => if c = '.' then scanDigits more scanExponent else scanExponent rest
  | [] => .wait

/-- A number after its sign. -/
def scanUnsigned (text : Text) : JsonScan :=
  match text with
  | [] => .wait
  | c :: rest =>
    if c = '0' then scanFraction rest
    else if isDigit c then scanFraction (rest.dropWhile isDigit)
    else .fail

/-- `scan_number`. -/
def scanNumber (text : Text) : JsonScan :=
  match text with
  | c :: rest => if c = '-' then scanUnsigned rest else scanUnsigned text
  | [] => .wait

/-- One of the words `true`, `false` and `null`. -/
def scanWord : Text → Text → JsonScan
  | [], rest => .done () rest
  | _ :: _, [] => .wait
  | expected :: word, c :: rest => if expected = c then scanWord word rest else .fail

/-! ## Values -/

inductive Bracket
  | brace
  | square
deriving DecidableEq

inductive Want
  | value
  | valueOrClose
  | keyOrClose
  | key
  | colon
  | after
deriving DecidableEq

/-- The open brackets and what may come next. -/
structure JsonState where
  stack : List Bracket
  want : Want
deriving DecidableEq

/-- A value or a bracket has ended: so has the whole when no bracket is
open. -/
def afterItem (stack : List Bracket) (rest : Text) : Round (JsonState × Text) JsonScan :=
  if stack = [] then .stop (.done () rest) else .next (⟨stack, .after⟩, rest)

/-- Go on behind a scalar. -/
def afterScalar (stack : List Bracket) (scan : JsonScan) : Round (JsonState × Text) JsonScan :=
  match scan with
  | .done _ rest => afterItem stack rest
  | other => .stop other

section
variable (stack : List Bracket) (c : Char) (rest : Text)

/-- A value that starts with `c`. -/
def valueRound : Round (JsonState × Text) JsonScan :=
  if c = '{' then .next (⟨.brace :: stack, .keyOrClose⟩, rest)
  else if c = '[' then .next (⟨.square :: stack, .valueOrClose⟩, rest)
  else if c = '"' then afterScalar stack (scanString rest)
  else if c = '-' || isDigit c then afterScalar stack (scanNumber (c :: rest))
  else if c = 't' then afterScalar stack (scanWord "rue".toList rest)
  else if c = 'f' then afterScalar stack (scanWord "alse".toList rest)
  else if c = 'n' then afterScalar stack (scanWord "ull".toList rest)
  else .stop .fail

def keyRound : Round (JsonState × Text) JsonScan :=
  if c = '"' then
    match scanString rest with
    | .done _ rest => .next (⟨stack, .colon⟩, rest)
    | other => .stop other
  else .stop .fail

/-- Behind an item of the innermost bracket. -/
def afterRound : Round (JsonState × Text) JsonScan :=
  match stack with
  | .brace :: outer =>
    if c = ',' then .next (⟨stack, .key⟩, rest)
    else if c = '}' then afterItem outer rest
    else .stop .fail
  | .square :: outer =>
    if c = ',' then .next (⟨stack, .value⟩, rest)
    else if c = ']' then afterItem outer rest
    else .stop .fail
  | [] => .stop .fail

end

/-- One round of `scan_value` at a character. -/
def jsonRoundAt (state : JsonState) (c : Char) (rest : Text) : Round (JsonState × Text) JsonScan :=
  match state.want with
  | .value => valueRound state.stack c rest
  | .valueOrClose =>
    if c = ']' then afterItem state.stack.tail rest
    else valueRound state.stack c rest
  | .keyOrClose =>
    if c = '}' then afterItem state.stack.tail rest
    else keyRound state.stack c rest
  | .key => keyRound state.stack c rest
  | .colon => if c = ':' then .next (⟨state.stack, .value⟩, rest) else .stop .fail
  | .after => afterRound state.stack c rest

/-- One round of `scan_value`: no whitespace is skipped before the value
itself. -/
def jsonRound (current : JsonState × Text) : Round (JsonState × Text) JsonScan :=
  let (state, text) := current
  let rest := if state.want ≠ .value || state.stack ≠ [] then skipWs text else text
  match rest with
  | [] => .stop .wait
  | c :: rest => jsonRoundAt state c rest

/-! Every round consumes text, and what it decides stays decided when more
text follows. -/

/-- What a reader leaves is an end of `text`. -/
def Leaves (text : Text) (scan : JsonScan) : Prop :=
  ∀ rest, scan = .done () rest → rest <:+ text

/-- What a round leaves is an end of `text`. -/
def Within (text : Text) : Round (JsonState × Text) JsonScan → Prop
  | .next later => later.2 <:+ text
  | .stop scan => Leaves text scan

/-- An outcome at `text`, and the one when `tail` follows. -/
structure Firm (text tail : Text) (scan later : JsonScan) : Prop where
  leaves : Leaves text scan
  later : Outcome.Later tail scan later

variable {scan later : JsonScan} {text rest tail : Text}

namespace Firm

lemma wait : Firm text tail .wait later :=
  ⟨nofun, trivial⟩

lemma fail : Firm text tail .fail .fail :=
  ⟨nofun, rfl⟩

lemma done (suffix : rest <:+ text) : Firm text tail (.done () rest) (.done () (rest ++ tail)) := by
  refine ⟨?_, rfl⟩
  rintro left ⟨⟩
  exact suffix

lemma behind (firm : Firm rest tail scan later) (suffix : rest <:+ text) :
    Firm text tail scan later :=
  ⟨fun left found => (firm.leaves left found).trans suffix, firm.later⟩

lemma cons (firm : Firm text tail scan later) (c : Char) : Firm (c :: text) tail scan later :=
  firm.behind (suffix_cons c text)

end Firm

/-- A reader that says the same of a text before any other. -/
def FirmReader (read : Text → JsonScan) : Prop :=
  ∀ text tail, Firm text tail (read text) (read (text ++ tail))

lemma FirmReader.dropWhile {read : Text → JsonScan} (firm : FirmReader read)
    (waits : read [] = .wait) (p : Char → Bool) :
    FirmReader fun text => read (text.dropWhile p) := by
  intro text tail
  dsimp only
  by_cases ended : text.dropWhile p = []
  · rw [ended, waits]
    exact .wait
  · rw [dropWhile_extend ended]
    exact (firm _ tail).behind (dropWhile_suffix p)

lemma scanStringAt_firm (place : StringPlace) : FirmReader (scanStringAt place) := by
  intro text tail
  induction text generalizing place with
  | nil => cases place <;> exact .wait
  | cons c rest ih =>
    rw [cons_append]
    cases place with
    | plain =>
      simp only [scanStringAt]
      split_ifs
      · exact .done (suffix_cons c rest)
      · exact (ih .escape).cons c
      · exact .fail
      · exact (ih .plain).cons c
    | escape =>
      simp only [scanStringAt]
      split_ifs
      · exact (ih (.hex 3)).cons c
      · exact (ih .plain).cons c
      · exact .fail
    | hex more =>
      simp only [scanStringAt]
      split
      · cases more with
        | zero => exact (ih .plain).cons c
        | succ more => exact (ih (.hex more)).cons c
      · exact .fail

lemma numberEnd_firm : FirmReader numberEnd := by
  intro text tail
  cases text with
  | nil => exact .wait
  | cons c rest => exact .done suffix_rfl

lemma scanDigits_firm {next : Text → JsonScan} (firm : FirmReader next)
    (waits : next [] = .wait) : FirmReader fun text => scanDigits text next := by
  intro text tail
  cases text with
  | nil => exact .wait
  | cons c rest =>
    simp only [cons_append, scanDigits]
    split
    · exact (firm.dropWhile waits isDigit rest tail).cons c
    · exact .fail

lemma dropSign_suffix (text : Text) : dropSign text <:+ text := by
  cases text with
  | nil => exact suffix_rfl
  | cons c rest =>
    rw [dropSign]
    split
    · exact suffix_cons c rest
    · exact suffix_rfl

lemma dropSign_append (filled : text ≠ []) (tail : Text) :
    dropSign (text ++ tail) = dropSign text ++ tail := by
  cases text with
  | nil => exact absurd rfl filled
  | cons c rest =>
    simp only [cons_append, dropSign]
    split <;> rfl

lemma scanExponent_firm : FirmReader scanExponent := by
  intro text tail
  cases text with
  | nil => exact .wait
  | cons c more =>
    simp only [cons_append, scanExponent]
    split
    · cases more with
      | nil => exact .wait
      | cons sign digits =>
        rw [dropSign_append (cons_ne_nil _ _)]
        exact ((scanDigits_firm numberEnd_firm rfl _ tail).behind (dropSign_suffix _)).cons c
    · exact numberEnd_firm (c :: more) tail

lemma scanFraction_firm : FirmReader scanFraction := by
  intro text tail
  cases text with
  | nil => exact .wait
  | cons c more =>
    simp only [cons_append, scanFraction]
    split
    · exact (scanDigits_firm scanExponent_firm rfl more tail).cons c
    · exact scanExponent_firm (c :: more) tail

lemma scanUnsigned_firm (c : Char) (rest tail : Text) :
    Firm rest tail (scanUnsigned (c :: rest)) (scanUnsigned (c :: rest ++ tail)) := by
  simp only [cons_append, scanUnsigned]
  split_ifs
  · exact scanFraction_firm rest tail
  · exact scanFraction_firm.dropWhile rfl isDigit rest tail
  · exact .fail

lemma scanNumber_firm (c : Char) (rest tail : Text) :
    Firm rest tail (scanNumber (c :: rest)) (scanNumber (c :: rest ++ tail)) := by
  simp only [cons_append, scanNumber]
  split
  · cases rest with
    | nil => exact .wait
    | cons digit rest => exact (scanUnsigned_firm digit rest tail).cons digit
  · exact scanUnsigned_firm c rest tail

lemma scanWord_firm (word : Text) : FirmReader (scanWord word) := by
  intro text tail
  induction word generalizing text with
  | nil => exact .done suffix_rfl
  | cons expected word ih =>
    cases text with
    | nil => exact .wait
    | cons c rest =>
      simp only [cons_append, scanWord]
      split
      · exact (ih rest).cons c
      · exact .fail

/-- A round at `text`, and the one when `tail` follows. -/
structure FirmRound (text tail : Text) (round later : Round (JsonState × Text) JsonScan) :
    Prop where
  within : Within text round
  later : Round.Later tail round later

namespace FirmRound

lemma next {state : JsonState} (suffix : rest <:+ text) :
    FirmRound text tail (.next (state, rest)) (.next (state, rest ++ tail)) :=
  ⟨suffix, rfl⟩

lemma stop (firm : Firm text tail scan later) : FirmRound text tail (.stop scan) (.stop later) := by
  refine ⟨firm.leaves, ?_⟩
  cases scan with
  | wait => trivial
  | fail | done value rest => exact congrArg Round.stop firm.later

lemma behind {round later : Round (JsonState × Text) JsonScan}
    (firm : FirmRound rest tail round later) (suffix : rest <:+ text) :
    FirmRound text tail round later := by
  refine ⟨?_, firm.later⟩
  have within := firm.within
  cases round with
  | next later => exact List.IsSuffix.trans within suffix
  | stop scan => exact fun left found => (within left found).trans suffix

end FirmRound

section
variable (stack : List Bracket)

lemma afterItem_firm (rest tail : Text) :
    FirmRound rest tail (afterItem stack rest) (afterItem stack (rest ++ tail)) := by
  rw [afterItem, afterItem]
  split
  · exact .stop (.done suffix_rfl)
  · exact .next suffix_rfl

lemma afterScalar_firm (firm : Firm rest tail scan later) :
    FirmRound rest tail (afterScalar stack scan) (afterScalar stack later) := by
  obtain ⟨leaves, same⟩ := firm
  cases scan with
  | wait => exact ⟨nofun, trivial⟩
  | fail =>
    cases same
    exact .stop .fail
  | done value left =>
    cases same
    exact (afterItem_firm stack left tail).behind (leaves left rfl)

variable (c : Char) (rest tail : Text)

lemma valueRound_firm :
    FirmRound rest tail (valueRound stack c rest) (valueRound stack c (rest ++ tail)) := by
  rw [valueRound, valueRound]
  repeat' split
  · exact .next suffix_rfl
  · exact .next suffix_rfl
  · exact afterScalar_firm stack (scanStringAt_firm .plain rest tail)
  · exact afterScalar_firm stack (scanNumber_firm c rest tail)
  · exact afterScalar_firm stack (scanWord_firm _ rest tail)
  · exact afterScalar_firm stack (scanWord_firm _ rest tail)
  · exact afterScalar_firm stack (scanWord_firm _ rest tail)
  · exact .stop .fail

lemma keyRound_firm :
    FirmRound rest tail (keyRound stack c rest) (keyRound stack c (rest ++ tail)) := by
  rw [keyRound, keyRound]
  split
  · obtain ⟨leaves, same⟩ := scanStringAt_firm .plain rest tail
    rw [scanString, scanString]
    cases scan : scanStringAt .plain rest with
    | wait => exact ⟨nofun, trivial⟩
    | fail =>
      rw [scan] at same
      rw [same]
      exact .stop .fail
    | done value left =>
      rw [scan] at same
      rw [same]
      exact .next (leaves left scan)
  · exact .stop .fail

lemma afterRound_firm :
    FirmRound rest tail (afterRound stack c rest) (afterRound stack c (rest ++ tail)) := by
  match stack with
  | [] => exact .stop .fail
  | .brace :: outer | .square :: outer =>
    rw [afterRound, afterRound]
    split_ifs
    · exact .next suffix_rfl
    · exact afterItem_firm outer rest tail
    · exact .stop .fail

end

lemma jsonRoundAt_firm (state : JsonState) (c : Char) (rest tail : Text) :
    FirmRound rest tail (jsonRoundAt state c rest) (jsonRoundAt state c (rest ++ tail)) := by
  rw [jsonRoundAt, jsonRoundAt]
  split
  · exact valueRound_firm _ c rest tail
  · split
    · exact afterItem_firm _ rest tail
    · exact valueRound_firm _ c rest tail
  · split
    · exact afterItem_firm _ rest tail
    · exact keyRound_firm _ c rest tail
  · exact keyRound_firm _ c rest tail
  · split
    · exact .next suffix_rfl
    · exact .stop .fail
  · exact afterRound_firm _ c rest tail

lemma skipWs_suffix (text : Text) : skipWs text <:+ text :=
  dropWhile_suffix _

/-- A round at a text stops waiting, or is a round at a character and what it
leaves lies behind that. -/
lemma jsonRound_cases (state : JsonState) (text : Text) :
    jsonRound (state, text) = .stop .wait ∨ ∃ c rest, c :: rest <:+ text ∧
        jsonRound (state, text) = jsonRoundAt state c rest := by
  have shorter : (if state.want ≠ .value || state.stack ≠ [] then
      skipWs text else text) <:+ text := by
    split
    · exact skipWs_suffix text
    · exact suffix_rfl
  rw [jsonRound]
  split
  · exact .inl rfl
  next c rest shape =>
    rw [shape] at shorter
    exact .inr ⟨c, rest, shorter, rfl⟩

lemma jsonRound_decreases : Decreases jsonRound fun current => current.2.length := by
  rintro ⟨state, text⟩ later step
  rcases jsonRound_cases state text with waits | ⟨c, rest, shorter, same⟩
  · cases waits.symm.trans step
  · have within := (jsonRoundAt_firm state c rest []).within
    rw [← same, step] at within
    have fewer := List.IsSuffix.length_le within
    have behind := shorter.length_le
    rw [length_cons] at behind
    exact Nat.lt_of_le_of_lt fewer behind

/-- `scan_value`: the JSON value that starts exactly at the beginning of the
text. -/
def scanValue (text : Text) : JsonScan :=
  Loop.run jsonRound (fun current => current.2.length) jsonRound_decreases (⟨[], .value⟩, text)

/-- The text left behind a value is an end of the text. -/
lemma scanValue_leaves (text : Text) : Leaves text (scanValue text) := by
  have within : ∀ current : JsonState × Text, current.2 <:+ text →
      Within text (jsonRound current) := by
    rintro ⟨state, here⟩ shorter
    rcases jsonRound_cases state here with waits | ⟨c, rest, inside, same⟩
    · rw [waits]
      nofun
    · rw [same]
      have suffix := ((suffix_cons c rest).trans inside).trans shorter
      exact ((jsonRoundAt_firm state c rest []).behind suffix).within
  have next (current later : JsonState × Text) (shorter : current.2 <:+ text)
      (step : jsonRound current = .next later) : later.2 <:+ text := by
    have round := within current shorter
    rw [step] at round
    exact round
  have stop (current : JsonState × Text) (result : JsonScan) (shorter : current.2 <:+ text)
      (step : jsonRound current = .stop result) : Leaves text result := by
    have round := within current shorter
    rw [step] at round
    exact round
  exact Loop.run_rule _ next stop suffix_rfl

/-! ## Raw arguments -/

/-- Whether a text ends inside a string literal; `escaped` after a
backslash. -/
def endsInString : Bool → Bool → Text → Bool
  | inString, _, [] => inString
  | true, true, _ :: rest => endsInString true false rest
  | true, false, c :: rest =>
    if c = '\\' then endsInString true true rest
    else endsInString (c ≠ '"') false rest
  | false, _, c :: rest => endsInString (c = '"') false rest

/-- `partial_json`: whitespace inside an unfinished string is kept. -/
def partialJson (raw : Text) : Text :=
  if endsInString false false raw then trimStart raw else trim raw

/-- Arguments written as raw JSON: the text to stream, the final arguments
once closed, and the text after the closing marker. -/
structure RawArgs where
  stream : Text
  done : Option Text
  rest : Option Text
deriving Repr, DecidableEq

/-- The part of `text` before its suffix `rest`. -/
def before (text rest : Text) : Text :=
  text.take (text.length - rest.length)

section RawArgs
variable (canonical : Text → Text)

/-- Arguments whose closing marker has been read; empty ones are an empty
object. -/
def closedArgs (raw rest : Text) : RawArgs :=
  if raw = [] then
    ⟨"\x7b\x7d".toList, some "\x7b\x7d".toList, some rest⟩
  else
    ⟨raw, some (canonical raw), some rest⟩

/-- Arguments that have not been closed; `done` once decoding has ended. -/
def openArgs (stream final : Text) (finished : Bool) : RawArgs :=
  ⟨stream, if finished then some final else none, none⟩

/-- Raw arguments whose value is complete. -/
def valueArgs (json rest : Text) (ends : List Text) (finished : Bool) : RawArgs :=
  match ends.find? fun ending => ending.isPrefixOf rest with
  | some ending => closedArgs canonical json (rest.drop ending.length)
  | none =>
    if rest = [] || ends.any fun ending => rest.isPrefixOf ending then
      openArgs json (canonical json) finished
    else
      match cutFirst ends rest with
      | some cut => closedArgs canonical json cut.after
      | none => openArgs json (canonical json) finished

/-- `raw_args`. -/
def rawArgs (text : Text) (ends : List Text) (finished : Bool) : RawArgs :=
  let body := skipWs text
  match scanValue body with
  | .done _ after => valueArgs canonical (before body after) (skipWs after) ends finished
  | .fail =>
    match cutFirst ends text with
    | some cut => closedArgs canonical (trim cut.before) cut.after
    | none => openArgs [] (trimEnd body) finished
  | .wait =>
    match cutFirst ends text with
    | some cut =>
      if finished then
        closedArgs canonical (partialJson cut.before) cut.after
      else
        openArgs (partialJson cut.before) [] false
    | none =>
      openArgs (partialJson (settled ends body)) (partialJson body) finished

end RawArgs

end

open Joshua.Foundation

/-! ## One call -/

/-- What a reader of one call says: it is not a call, it cannot tell yet, or
the call and, once that has ended, the text after it. -/
inductive CallRead
  | refused
  | waiting
  | call (call : PartialCall) (rest : Option Text)
deriving Repr, DecidableEq

/-- Whether a header runs over a line or into other markup. -/
def headerBroken (header : Text) : Bool :=
  header.any fun c => c = '\n' || c = '<'

/-- A header that has not reached its closing tag yet. -/
def headerPending (text ending : Text) (finished : Bool) : CallRead :=
  if finished || headerBroken (settled [ending] text) then .refused
  else .waiting

/-! ## Sections -/

section Section
variable (opens call closes : List Text) (read : Text → Bool → CallRead)
  (region : Text) (finished : Bool)

/-- The section marker the region starts with. -/
def sectionOpen : Option Text :=
  opens.find? fun marker => marker.isPrefixOf region

/-- The bytes of the marker the region starts with. -/
def sectionMarker : Nat :=
  (((sectionOpen opens region).or (call.find? fun marker => marker.isPrefixOf region)).map
      byteLength).getD 1

/-- The offset in the region at which `rest` starts. -/
def offsetOf (rest : Text) : Nat :=
  byteLength region - byteLength rest

/-- A call that is not one: without calls before it the region is text, in a
section it is skipped, otherwise the region ends before it. -/
def refusedRound (tail body : Text) (calls : List PartialCall) :
    Round (Text × List PartialCall) Scan :=
  if calls = [] then .stop (.text (sectionMarker opens call region))
  else if (sectionOpen opens region).isSome then .next (body, calls)
  else .stop (.calls calls (some (offsetOf region tail)))

/-- At a string that opens a call; `body` is the text after it. -/
def callRound (tail body : Text) (calls : List PartialCall) :
    Round (Text × List PartialCall) Scan :=
  match read body finished with
  | .call found (some rest) => .next (rest, calls ++ [found])
  | .call found none => .stop (.calls (calls ++ [found]) none)
  | .waiting =>
    if finished then refusedRound opens call region tail body calls
    else if calls = [] && (sectionOpen opens region).isNone then
      .stop .pending
    else .stop (.calls calls none)
  | .refused => refusedRound opens call region tail body calls

/-- At anything that neither opens a call nor closes the section. -/
def otherRound (tail rest : Text) (calls : List PartialCall) :
    Round (Text × List PartialCall) Scan :=
  let atEnd := if finished then some (byteLength region) else none
  let opened := (sectionOpen opens region).isSome
  if (call ++ closes).any (fun tag => rest.isPrefixOf tag) && (opened || calls ≠ []) then
    .stop (.calls calls atEnd)
  else if opened && calls ≠ [] then
    -- broken markup, dropped up to the next call or the section's end
    match cutFirst (call ++ closes) rest with
    | some cut => .next (cut.marker ++ cut.after, calls)
    | none => .stop (.calls calls atEnd)
  else if calls = [] then .stop (.text (sectionMarker opens call region))
  else .stop (.calls calls (some (offsetOf region tail)))

/-- One round of the loop of `section`, with the text from the present offset
on and the calls read so far. -/
def sectionRound (current : Text × List PartialCall) : Round (Text × List PartialCall) Scan :=
  let (tail, calls) := current
  let rest := skipWs tail
  match call.find? fun tag => tag.isPrefixOf rest with
  | some opener =>
    callRound opens call read region finished tail (rest.drop opener.length) calls
  | none =>
    match closes.find? fun tag => tag.isPrefixOf rest with
    | some close => .stop (.calls calls (some (offsetOf region (rest.drop close.length))))
    | none => otherRound opens call closes region finished tail rest calls

/-- `section`: every round consumes text, so the length of the region bounds
their number. -/
def sectionScan : Scan :=
  let start := match sectionOpen opens region with
    | some marker => region.drop marker.length
    | none => region
  (loop (sectionRound opens call closes read region finished)
    (region.length + 1) (start, [])).getD .pending

end Section

/-- `close_after`: where a region closed by `close` ends, given that its
content ends before `tail`. -/
def closeAfter (tail close : Text) (stops : List Text) (finished : Bool) : Option Text :=
  let rest := skipWs tail
  if rest = [] then none
  else if close.isPrefixOf rest then some (rest.drop close.length)
  else if rest.isPrefixOf close then if finished then some [] else none
  else
    match cutFirst [close] rest, cutFirst stops rest with
    | some cut, none => some cut.after
    | some cut, some stop =>
      if byteLength cut.before < byteLength stop.before then some cut.after
      else some tail
    | none, none => if finished then some tail else none
    | none, some _ => some tail

/-! ## Kimi K2 -/

def k2Section : Text := "<|tool_calls_section_begin|>".toList
def k2SectionEnd : Text := "<|tool_calls_section_end|>".toList
def k2CallMarker : Text := "<|tool_call_begin|>".toList
def k2Args : Text := "<|tool_call_argument_begin|>".toList
def k2CallEnd : Text := "<|tool_call_end|>".toList

/-- The id and the name a header spells: the name is the part before
`:<index>`, when there is an index. -/
def k2Header (header : Text) : Option Text × Text :=
  match afterLast [':'] header with
  | some index =>
    if index ≠ [] && index.all isDigit then
      (some header, header.take (header.length - index.length - 1))
    else (none, header)
  | none => (none, header)

def stripPrefix (start text : Text) : Text :=
  if start.isPrefixOf text then text.drop start.length else text

/-- A name no call can have. -/
def badName (name : Text) : Bool :=
  name.isEmpty || name.any isWhitespace

section Formats
variable (canonical : Text → Text)

/-- `k2_call`: one call after its opening string. -/
def k2Call (text : Text) (finished : Bool) : CallRead :=
  match find k2Args text with
  | none => headerPending text k2Args finished
  | some (headerText, args) =>
    if headerBroken headerText then .refused
    else
      let (id, spelled) := k2Header (trim headerText)
      let name := stripPrefix "functions.".toList spelled
      if badName name then .refused
      else
        let raw := rawArgs canonical args [k2CallEnd, k2SectionEnd] finished
        -- the section's end is left for the section to read
        let rest := raw.rest.map fun rest =>
          if k2SectionEnd.isSuffixOf (before text rest) then
            k2SectionEnd ++ rest
          else rest
        .call ⟨id, name, raw.stream, raw.done⟩ rest

def kimiK2 : Grammar where
  markers := [⟨k2Section, false, [k2SectionEnd]⟩, ⟨k2CallMarker, false, [k2CallEnd]⟩]
  scan := sectionScan [k2Section] [k2CallMarker] [k2SectionEnd] (k2Call canonical)

/-! ## DeepSeek V3 -/

def v3Sections : List Text :=
  ["<｜tool▁calls▁begin｜>".toList, "<｜tool_calls_begin｜>".toList,
    "<｜tool calls begin｜>".toList, "<｜tool\\_calls\\_begin｜>".toList]
def v3SectionEnd : Text := "<｜tool▁calls▁end｜>".toList
def v3CallMarker : Text := "<｜tool▁call▁begin｜>".toList
def v3CallEnd : Text := "<｜tool▁call▁end｜>".toList
def v3Sep : Text := "<｜tool▁sep｜>".toList
def v3Fence : Text := "```json".toList
def v3FenceEnd : Text := "```".toList

/-- Whether the arguments after the separator are fenced: not known yet, not
fenced, or fenced with the line before the fence and the text after it. -/
inductive Fenced
  | unknown
  | bare
  | fenced (line rest : Text)
deriving Repr, DecidableEq

def v3Fenced (after : Text) (finished : Bool) : Fenced :=
  if (trimStart after).head?.any fun c => c = '{' || c = '[' then .bare
  else
    match find ['\n'] after with
    | some (line, fence) =>
      if occurs v3CallEnd line then .bare
      else if v3Fence.isPrefixOf fence then
        .fenced line (fence.drop v3Fence.length)
      else if !finished && fence.isPrefixOf v3Fence then .unknown
      else .bare
    | none => if !finished && !occurs v3CallEnd after then .unknown else .bare

/-- `v3_call`: one call after its opening string. -/
def v3Call (text : Text) (finished : Bool) : CallRead :=
  match find v3Sep text with
  | none => headerPending text v3Sep finished
  | some (headText, after) =>
    if headerBroken headText then .refused
    else
      match v3Fenced after finished with
      | .unknown => .waiting
      | .bare =>
        let name := trim headText
        if badName name then .refused
        else
          let raw := rawArgs canonical after [v3CallEnd] finished
          .call ⟨none, name, raw.stream, raw.done⟩ raw.rest
      | .fenced line rest =>
        let name := trim line
        if badName name then .refused
        else
          let body := stripPrefix ['\n'] rest
          let raw := rawArgs canonical body [v3FenceEnd] finished
          -- the fence closes the arguments, the call's own end follows
          .call ⟨none, name, raw.stream, raw.done⟩
            (raw.rest.bind fun tail =>
              closeAfter tail v3CallEnd [v3CallMarker, v3SectionEnd] finished)

def deepSeekV3 : Grammar where
  markers :=
    (v3Sections.map fun marker => ⟨marker, false, [v3SectionEnd]⟩) ++
      [⟨v3CallMarker, false, [v3CallEnd]⟩]
  scan := sectionScan v3Sections [v3CallMarker] [v3SectionEnd] (v3Call canonical)

end Formats

end Joshua
