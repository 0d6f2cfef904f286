/-
Module: Joshua.Proofs.ToolArgs
Purpose: Decisions of the JSON reader are final: a value that has been read,
  or refused, is read or refused the same way when more text follows, and
  arguments that have been closed stay closed. The arguments text of tagged
  parameters only grows while they arrive.
Trusted boundary: none
-/
import Joshua.Model.ToolArgs
import Joshua.Model.ToolJson

namespace Joshua
open Joshua.Foundation List

section

/-! ## Values -/

variable {text : Text} {tags : List Text}

lemma skipWs_append (filled : skipWs text ≠ []) (tail : Text) :
    skipWs (text ++ tail) = skipWs text ++ tail :=
  dropWhile_extend filled tail

lemma jsonRound_later (state : JsonState) (text tail : Text) :
    Round.Later tail (jsonRound (state, text)) (jsonRound (state, text ++ tail)) := by
  rw [jsonRound, jsonRound]
  -- whitespace at the end may go on, but then the round waits
  have grown : ∀ spaced : Bool, (if spaced = true then skipWs text else text) ≠ [] →
      (if spaced = true then skipWs (text ++ tail) else text ++ tail) =
        (if spaced = true then skipWs text else text) ++ tail := by
    intro spaced filled
    cases spaced with
    | false => rfl
    | true => exact skipWs_append filled tail
  specialize grown (state.want ≠ .value || state.stack ≠ [])
  cases rest : (if (state.want ≠ .value || state.stack ≠ []) = true then
      skipWs text else text) with
  | nil => trivial
  | cons c rest_ =>
    rw [rest] at grown
    rw [grown (cons_ne_nil _ _)]
    exact (jsonRoundAt_firm state c rest_ tail).later

/-- Where a value ends is final. -/
lemma scanValue_incremental : Incremental scanValue :=
  incremental_run jsonRound_decreases jsonRound_later ⟨[], .value⟩

/-! ## Searches for a tag -/

lemma find?_isPrefix {tag : Text} (found : (tags.find? fun tag => tag.isPrefixOf text) = some tag) :
    tag ∈ tags ∧ tag <+: text := by
  refine ⟨mem_of_find?_eq_some found, ?_⟩
  have starts := List.find?_some found
  exact isPrefixOf_iff_prefix.mp starts

lemma find?_isPrefix_none : (tags.find? fun tag => tag.isPrefixOf text) = none ↔
    ∀ tag ∈ tags, ¬ tag <+: text := by
  simp only [List.find?_eq_none, isPrefixOf_iff_prefix]

/-- The tag a text starts with stays the one found. -/
lemma find?_extend (apart : Apart tags) {tag : Text}
    (found : (tags.find? fun tag => tag.isPrefixOf text) = some tag) (tail : Text) :
    (tags.find? fun tag => tag.isPrefixOf (text ++ tail)) = some tag := by
  obtain ⟨mem, starts⟩ := find?_isPrefix found
  cases later : tags.find? fun tag => tag.isPrefixOf (text ++ tail) with
  | none =>
    exact absurd (starts.trans (prefix_append _ _)) (find?_isPrefix_none.mp later tag mem)
  | some j =>
    obtain ⟨otherMember, otherStarts⟩ := find?_isPrefix later
    rcases prefix_or_prefix_of_prefix otherStarts
        (starts.trans (prefix_append _ _)) with inner | outer
    · rw [apart tag mem j otherMember inner.isInfix]
    · rw [apart j otherMember tag mem outer.isInfix]

/-- A text that starts no tag and that no tag starts does not come to start
with one. -/
lemma find?_extend_none (missing : (tags.find? fun tag => tag.isPrefixOf text) = none)
    (off : (tags.any fun tag => text.isPrefixOf tag) = false) (tail : Text) :
    (tags.find? fun tag => tag.isPrefixOf (text ++ tail)) = none ∧
      (tags.any fun tag => (text ++ tail).isPrefixOf tag) = false := by
  have apart : ∀ tag ∈ tags, ¬ tag <+: text ++ tail ∧ ¬ text ++ tail <+: tag := by
    intro tag mem
    have away := List.any_eq_false.mp off tag mem
    rw [ isPrefixOf_iff_prefix] at away
    exact not_prefix_append (find?_isPrefix_none.mp missing tag mem) away tail
  constructor
  · exact find?_isPrefix_none.mpr fun tag mem => (apart tag mem).1
  · rw [List.any_eq_false]
    intro tag mem covers
    exact (apart tag mem).2 ( isPrefixOf_iff_prefix.mp covers)

/-! ## Raw arguments -/

lemma before_append {rest : Text} (suffix : rest <:+ text) (tail : Text) :
    before (text ++ tail) (rest ++ tail) = before text rest := by
  obtain ⟨front, rfl⟩ := suffix
  have size : (front ++ rest ++ tail).length - (rest ++ tail).length = front.length := by
    simp only [length_append]
    omega
  have small : (front ++ rest).length - rest.length = front.length := by
    simp only [length_append]
    omega
  rw [before, before, size, small, List.append_assoc, take_left, take_left]

section RawArgs
variable {canonical : Text → Text} {ends : List Text}

/-- The text left behind the arguments follows a closing marker. -/
def RawArgs.Leaves (raw : RawArgs) (ends : List Text) (text : Text) : Prop :=
  ∀ rest, raw.rest = some rest → ∃ ending ∈ ends, ending ++ rest <:+ text

/-- Arguments that are closed, or that no more text can follow, are final. -/
def RawArgs.Settled (raw : RawArgs) (finished : Bool) : Prop :=
  raw.done ≠ none ↔ finished = true ∨ raw.rest ≠ none

/-- Both, for arguments read from `text`. -/
structure RawArgs.Sound (raw : RawArgs) (ends : List Text) (text : Text) (finished : Bool) :
    Prop where
  leaves : raw.Leaves ends text
  settled : raw.Settled finished

variable {rest text raw : Text} {ended : Bool}

lemma closedArgs_sound {ending : Text} (mem : ending ∈ ends) (suffix : ending ++ rest <:+ text) :
    (closedArgs canonical raw rest).Sound ends text ended := by
  rw [closedArgs]
  constructor
  · intro left found
    have same : some rest = some left := by
      split at found <;> exact found
    cases same
    exact ⟨ending, mem, suffix⟩
  · split <;> exact ⟨fun _ => .inr nofun, fun _ => nofun⟩

lemma cutFirst_suffix {cut : Cut Char} (found : cutFirst ends text = some cut) :
    cut.marker ++ cut.after <:+ text :=
  ⟨cut.before, (cutFirst_rebuild found).symm⟩

lemma cutArgs_sound {cut : Cut Char} (found : cutFirst ends text = some cut) :
    (closedArgs canonical raw cut.after).Sound ends text ended :=
  closedArgs_sound (cutFirst_marker_mem found) (cutFirst_suffix found)

lemma openArgs_sound {stream final : Text} :
    (openArgs stream final ended).Sound ends text ended := by
  refine ⟨nofun, ?_⟩
  cases ended with
  | true => exact ⟨fun _ => .inl rfl, fun _ => nofun⟩
  | false =>
    refine ⟨fun never => absurd rfl never, ?_⟩
    rintro (never | never)
    · cases never
    · exact absurd rfl never

lemma valueArgs_sound (json : Text) :
    (valueArgs canonical json rest ends ended).Sound ends rest ended := by
  rw [valueArgs]
  split
  next ending found =>
    obtain ⟨mem, left, rfl⟩ := find?_isPrefix found
    rw [drop_left]
    exact closedArgs_sound mem suffix_rfl
  next =>
    split
    · exact openArgs_sound
    · split
      next cut found => exact cutArgs_sound found
      next => exact openArgs_sound

lemma rawArgs_sound (text : Text) (ended : Bool) :
    (rawArgs canonical text ends ended).Sound ends text ended := by
  rw [rawArgs]
  split
  next after scanned =>
    have inside := (scanValue_leaves _ after scanned).trans (skipWs_suffix text)
    obtain ⟨leaves, settled⟩ := valueArgs_sound (before (skipWs text) after)
    refine ⟨fun rest found => ?_, settled⟩
    obtain ⟨ending, mem, suffix⟩ := leaves rest found
    exact ⟨ending, mem, suffix.trans ((skipWs_suffix after).trans inside)⟩
  next =>
    split
    next cut found => exact cutArgs_sound found
    next => exact openArgs_sound
  next =>
    split
    next cut found =>
      split
      · exact cutArgs_sound found
      next going =>
        rw [Bool.eq_false_iff.mpr going]
        exact openArgs_sound
    next => exact openArgs_sound

/-- The same arguments with more text behind them. -/
def RawArgs.extend (raw : RawArgs) (tail : Text) : RawArgs :=
  { raw with rest := raw.rest.map fun rest => rest ++ tail }

lemma closedArgs_extend (raw rest tail : Text) : (closedArgs canonical raw rest).extend tail =
      closedArgs canonical raw (rest ++ tail) := by
  rw [closedArgs, closedArgs]
  split <;> rfl

variable (apart : Apart ends) (named : ∀ ending ∈ ends, ending ≠ [])
include apart

lemma valueArgs_closed {json : Text} (filled : rest ≠ [])
    (closed : (valueArgs canonical json rest ends false).rest ≠ none) (tail : Text)
    (ended : Bool) : valueArgs canonical json (rest ++ tail) ends ended =
      (valueArgs canonical json rest ends false).extend tail := by
  rw [valueArgs] at closed
  rw [valueArgs, valueArgs]
  split at closed
  next ending found =>
    have shorter := (find?_isPrefix found).2.length_le
    rw [find?_extend apart found, closedArgs_extend]
    dsimp only
    rw [drop_append_of_le_length shorter]
  next missing =>
    split at closed
    · exact absurd rfl closed
    next off =>
      rw [Bool.or_eq_true, not_or] at off
      have away := Bool.eq_false_iff.mpr off.2
      obtain ⟨missing, offToo⟩ := find?_extend_none missing away tail
      rw [missing, offToo]
      split at closed
      next cut found =>
        rw [cutFirst_append apart found]
        simp only [append_eq_nil_iff, filled, false_and, decide_false,
          Bool.or_self, Bool.false_eq_true, if_false, away]
        rw [closedArgs_extend]
        rfl
      next => exact absurd rfl closed

include named in
/-- Arguments that have been closed are final. -/
lemma rawArgs_closed (closed : (rawArgs canonical text ends false).rest ≠ none) (tail : Text)
    (ended : Bool) : rawArgs canonical (text ++ tail) ends ended =
      (rawArgs canonical text ends false).extend tail := by
  have filled (scans : scanValue (skipWs text) ≠ .wait) : skipWs text ≠ [] := by
    intro empty
    rw [empty] at scans
    exact scans rfl
  rw [rawArgs] at closed
  rw [rawArgs, rawArgs]
  cases scanned : scanValue (skipWs text) with
  | wait =>
    rw [scanned] at closed
    dsimp only at closed
    split at closed <;> exact absurd rfl closed
  | fail =>
    specialize filled (by simp [scanned])
    rw [scanned] at closed
    dsimp only at closed ⊢
    rw [skipWs_append filled, scanValue_incremental.of_fail scanned]
    split at closed
    next cut found =>
      rw [cutFirst_append apart found]
      exact (closedArgs_extend _ _ tail).symm
    next => exact absurd rfl closed
  | done value after =>
    specialize filled (by simp [scanned])
    rw [scanned] at closed
    dsimp only at closed ⊢
    rw [skipWs_append filled, scanValue_incremental.of_done scanned]
    dsimp only
    have suffix := scanValue_leaves _ after scanned
    have behind : skipWs after ≠ [] := by
      intro empty
      rw [empty, valueArgs] at closed
      split at closed
      next ending found =>
        obtain ⟨mem, starts⟩ := find?_isPrefix found
        exact named ending mem (prefix_nil.mp starts)
      next => exact absurd rfl closed
    rw [before_append suffix, skipWs_append behind]
    exact valueArgs_closed apart behind closed tail ended

end RawArgs

end

/-! ## The arguments object -/

variable {short long : Text}

lemma JsonText.quoteOpen_grows (json : JsonText) (starts : short <+: long) :
    json.quoteOpen short <+: json.quoteOpen long := by
  obtain ⟨more, rfl⟩ := starts
  rw [quoteOpen, quoteOpen, flatMap_append, cons_prefix_cons]
  exact ⟨rfl, prefix_append _ _⟩

lemma ArgsJson.text_starts_push (json : JsonText) (args : ArgsJson)
    (name value : Text) : args.text <+: (args.push json name value).text := by
  refine ⟨(if 1 < byteLength args.text then [','] else []) ++ json.quote name ++ [':'] ++ value, ?_⟩
  simp only [push, key, append_assoc]

/-- An open string parameter is kept when it is finished with more text. -/
lemma ArgsJson.streaming_starts_push (json : JsonText) (args : ArgsJson) (name : Text)
    (starts : short <+: long) :
    args.streaming json (some (name, short)) <+: (args.push json name (json.quote long)).text := by
  have grown := json.quoteOpen_grows starts
  rw [streaming, push, JsonText.quote]
  exact (prefix_append_right_inj _).mpr (grown.trans (prefix_append _ _))

/-! ## Families whose reading is final -/

namespace TaggedParams

/-- Tags that are not inside one another, headers that are final, and a value
that grows with its text. -/
structure Steady (family : TaggedParams) : Prop where
  next : Apart family.next
  valueEnd : Apart family.valueEnd
  refused : ∀ text tail, family.header text = .refused → family.header (text ++ tail) = .refused
  done : ∀ text tail key string rest, family.header text = .done key string rest →
    family.header (text ++ tail) = .done key string (rest ++ tail)
  trim : ∀ text tail, family.trim text <+: family.trim (text ++ tail)

variable {family : TaggedParams} {ctx : ParamsContext}

lemma pushed_starts (family : TaggedParams) (ctx : ParamsContext)
    (args : ArgsJson) (key value : Text) (string : Bool) :
    args.text <+: (family.pushed ctx args key value string).text := by
  rw [pushed]
  split
  · exact prefix_rfl
  · exact args.text_starts_push _ _ _

/-- The arguments text that reading ended with. -/
def argsText (context : ParamsContext) (params : Params) : Text :=
  (params.call context).args

lemma argsText_stopped (args : ArgsJson) (opened : Option (Text × Text)) (rest : Option Text) :
    args.text <+: argsText ctx ⟨args, opened, rest⟩ := by
  rw [argsText, Params.call, taggedCall.eq_def]
  split
  · cases opened with
    | none => exact prefix_append _ _
    | some parameter => exact (args.text_starts_push _ _ _).trans (prefix_append _ _)
  · cases opened with
    | none => exact prefix_rfl
    | some parameter =>
      obtain ⟨key, value⟩ := parameter
      refine ⟨(if 1 < byteLength args.text then [','] else []) ++
        ctx.json.quote key ++ [':'] ++ ctx.json.quoteOpen value, ?_⟩
      simp only [ArgsJson.streaming, ArgsJson.key, append_assoc]

variable {args : ArgsJson} {body : Text} {cut : Cut Char} {key value rest : Text} {later : ArgsJson}

/-- A round goes on with this text and more, or ends with it and more. -/
def RoundStarts (context : ParamsContext) (text : Text) : Round (ArgsJson × Text) Params → Prop
  | .next (later, _) => text <+: later.text
  | .stop params => text <+: argsText context params

lemma valueRound_starts (family : TaggedParams) (ctx : ParamsContext) (args : ArgsJson)
    (key value : Text) (string : Bool) :
    RoundStarts ctx args.text (family.valueRound ctx args key value string) := by
  rw [valueRound]
  split
  · exact family.pushed_starts ctx _ _ _ _
  · split
    · exact (family.pushed_starts ctx _ _ _ _).trans (argsText_stopped _ _ _)
    · split <;> exact argsText_stopped _ _ _

/-- A round only adds to the object. -/
lemma readRound_starts (family : TaggedParams) (ctx : ParamsContext) (args : ArgsJson)
    (body : Text) : RoundStarts ctx args.text (family.readRound ctx (args, body)) := by
  rw [readRound]
  split
  · exact argsText_stopped _ _ _
  · split
    · exact argsText_stopped _ _ _
    · split
      · exact argsText_stopped _ _ _
      · exact prefix_rfl
      · exact family.valueRound_starts _ _ _ _ _

/-- The rest of the loop from an object and the text left. -/
def readFrom (family : TaggedParams) (context : ParamsContext)
    (args : ArgsJson) (body : Text) : Params :=
  Loop.run (family.readRound context) (fun current => current.2.length)
    (family.readRound_decreases context) (args, body)

/-- The object so far is part of what is read in the end. -/
lemma readFrom_starts (args : ArgsJson) (body : Text) :
    args.text <+: argsText ctx (family.readFrom ctx args body) := by
  have next : ∀ cur later : ArgsJson × Text, args.text <+: cur.1.text →
      family.readRound ctx cur = .next later →
      args.text <+: later.1.text := by
    intro cur later starts step
    have round := family.readRound_starts ctx cur.1 cur.2
    exact starts.trans (by rwa [step] at round)
  have stop : ∀ (cur : ArgsJson × Text) (params : Params), args.text <+: cur.1.text →
      family.readRound ctx cur = .stop params →
      args.text <+: argsText ctx params := by
    intro cur params starts step
    have round := family.readRound_starts ctx cur.1 cur.2
    exact starts.trans (by rwa [step] at round)
  exact Loop.run_rule _ next stop prefix_rfl

/-- What the loop ends with when a round has done this. -/
def roundText (family : TaggedParams) (context : ParamsContext) :
    Round (ArgsJson × Text) Params → Text
  | .stop params => argsText context params
  | .next (args, body) => argsText context (family.readFrom context args body)

lemma readFrom_eq (args : ArgsJson) (body : Text) :
    argsText ctx (family.readFrom ctx args body) =
      family.roundText ctx (family.readRound ctx (args, body)) := by
  cases step : family.readRound ctx (args, body) with
  | stop params =>
    rw [readFrom, Loop.run_stop (family.readRound_decreases ctx) step]
    rfl
  | next later =>
    rw [readFrom, Loop.run_next (family.readRound_decreases ctx) step]
    rfl

/-! ## More text -/

/-- The same reading while decoding goes on. -/
def unfinished (context : ParamsContext) : ParamsContext :=
  { context with finished := false }

/-- What a round of the unfinished reading must become when `tail` follows
the text: it goes on in the same way, or the text it ends with is kept. -/
def Kept (family : TaggedParams) (context : ParamsContext) (tail : Text) :
    Round (ArgsJson × Text) Params → Round (ArgsJson × Text) Params → Prop
  | .next (args, rest), later => later = .next (args, rest ++ tail)
  | .stop params, later => argsText (unfinished context) params <+: family.roundText context later

/-- An object that no parameter is open in is kept. -/
lemma kept_of_text {tail : Text} : Kept family ctx tail (.stop ⟨args, none, none⟩)
      (family.readRound ctx (args, body)) := by
  have starts : args.text <+: argsText ctx (family.readFrom ctx args body) :=
    readFrom_starts args body
  rw [readFrom_eq] at starts
  exact starts

lemma argsText_open (args : ArgsJson) (key value : Text) :
    argsText (unfinished ctx) ⟨args, some (key, value), none⟩ =
      args.streaming ctx.json (some (key, value)) :=
  rfl

/-- A value that has its end. -/
lemma valueRound_closed (steady : family.Steady) (args : ArgsJson) (key : Text) (string : Bool)
    (found : cutFirst family.valueEnd value = some cut) (tail : Text) : Kept family ctx tail
      (family.valueRound (unfinished ctx) args key value string)
      (family.valueRound ctx args key (value ++ tail) string) := by
  have again := cutFirst_append steady.valueEnd found tail
  rw [valueRound, valueRound, found, again]
  dsimp only [Cut.extend]
  split
  · rfl
  · rw [← append_assoc]
    rfl

/-- The open string parameter is part of what its value becomes. -/
lemma streaming_kept (steady : family.Steady) (args : ArgsJson) (named : key ≠ [])
    (missing : cutFirst family.valueEnd value = none) (tail : Text) :
    args.streaming ctx.json (some (key, family.trim (settled family.valueEnd value))) <+:
      family.roundText ctx (family.valueRound ctx args key (value ++ tail) true) := by
  -- the value only grows, whatever it is read from
  have pushes : ∀ longer, settled family.valueEnd value <+: longer → args.streaming ctx.json
          (some (key, family.trim (settled family.valueEnd value))) <+:
        (family.pushed ctx args key longer true).text := by
    rintro _ ⟨more, rfl⟩
    rw [pushed, if_neg named, JsonText.convert, if_pos rfl]
    exact args.streaming_starts_push _ _ (steady.trim _ more)
  rw [valueRound]
  cases found : cutFirst family.valueEnd (value ++ tail) with
  | some cut =>
    rw [cutFirst_hold missing, Option.map_eq_some_iff] at found
    obtain ⟨inner, _, rfl⟩ := found
    exact (pushes _ (prefix_append _ _)).trans (readFrom_starts _ _)
  | none =>
    cases ended : ctx.finished with
    | true =>
      have whole : settled family.valueEnd value <+: value ++ tail :=
        ( take_prefix _ _).trans (prefix_append _ _)
      exact (pushes _ whole).trans (argsText_stopped _ _ _)
    | false =>
      have grown := steady.trim (settled family.valueEnd value)
        (settled family.valueEnd (held family.valueEnd value ++ tail))
      rw [← settled_append] at grown
      simp only [Bool.false_eq_true, if_false, Bool.true_and,
        decide_eq_true named, if_true, roundText, argsText, Params.call,
        Option.isSome_none, Bool.or_self, ended, taggedCall]
      exact (prefix_append_right_inj _).mpr (ctx.json.quoteOpen_grows grown)

lemma valueRound_text_starts (args : ArgsJson) (key value : Text) (string : Bool) :
    args.text <+: family.roundText ctx (family.valueRound ctx args key value string) := by
  have starts := family.valueRound_starts ctx args key value string
  generalize family.valueRound ctx args key value string = round at starts
  cases round with
  | stop params => exact starts
  | next later => exact IsPrefix.trans starts (readFrom_starts later.1 later.2)

lemma valueRound_kept (steady : family.Steady) (args : ArgsJson)
    (key value : Text) (string : Bool) (tail : Text) :
    Kept family ctx tail
      (family.valueRound (unfinished ctx) args key value string)
      (family.valueRound ctx args key (value ++ tail) string) := by
  cases found : cutFirst family.valueEnd value with
  | some cut => exact valueRound_closed steady args key string found tail
  | none =>
    have shape : family.valueRound (unfinished ctx) args key value string =
        if string && key ≠ [] then
          .stop ⟨args, some (key, family.trim (settled family.valueEnd value)), none⟩
        else .stop ⟨args, none, none⟩ := by
      rw [valueRound, found]
      rfl
    rw [shape]
    split
    · rename_i streams
      simp only [Bool.and_eq_true, decide_eq_true_eq] at streams
      obtain ⟨rfl, named⟩ := streams
      rw [Kept, argsText_open]
      exact streaming_kept steady args named found tail
    · exact valueRound_text_starts args key _ string

lemma readRound_ends (found : cutFirst family.next body = some cut)
    (ends : cut.marker ∈ family.callEnd) :
    family.readRound ctx (args, body) = .stop ⟨args, none, some cut.after⟩ := by
  rw [readRound, found]
  exact if_pos ends

lemma readRound_tag (found : cutFirst family.next body = some cut)
    (goes : cut.marker ∉ family.callEnd) :
    family.readRound ctx (args, body) =
      match family.header cut.after with
      | .waiting => .stop ⟨args, none, none⟩
      | .refused => .next (args, cut.after)
      | .done key string value =>
        family.valueRound ctx args key value
          (string.getD (stringParam ctx.tools ctx.function key)) := by
  rw [readRound, found]
  exact if_neg goes

section
variable (steady : family.Steady) (args : ArgsJson) (body tail : Text)
include steady

lemma readRound_kept : Kept family ctx tail
      (family.readRound (unfinished ctx) (args, body))
      (family.readRound ctx (args, body ++ tail)) := by
  cases found : cutFirst family.next body with
  | none =>
    have shape : family.readRound (unfinished ctx) (args, body) = .stop ⟨args, none, none⟩ := by
      rw [readRound, found]
    rw [shape]
    exact kept_of_text
  | some cut =>
    have again := cutFirst_append steady.next found tail
    by_cases ends : cut.marker ∈ family.callEnd
    · rw [readRound_ends found ends, readRound_ends again ends]
      exact prefix_rfl
    · cases header : family.header cut.after with
      | waiting =>
        rw [readRound_tag found ends, header]
        exact kept_of_text
      | refused =>
        have later := steady.refused _ tail header
        rw [readRound_tag found ends, header, readRound_tag again ends]
        simp only [Cut.extend, later]
        rfl
      | done key string value =>
        have later := steady.done _ tail _ _ _ header
        rw [readRound_tag found ends, header, readRound_tag again ends]
        simp only [Cut.extend, later]
        exact valueRound_kept steady args key value _ tail

/-- What is read of a beginning is kept, from any place on. -/
lemma readFrom_kept :
    argsText (unfinished ctx) (family.readFrom (unfinished ctx) args body) <+:
      argsText ctx (family.readFrom ctx args (body ++ tail)) := by
  induction size : body.length using Nat.strongRecOn generalizing args body with
  | ind size ih =>
    have kept : Kept family ctx tail _ _ := readRound_kept steady args body tail
    rw [readFrom_eq, readFrom_eq]
    cases step : family.readRound (unfinished ctx) (args, body) with
    | stop params =>
      rw [step] at kept
      exact kept
    | next later =>
      obtain ⟨later, rest⟩ := later
      rw [step] at kept
      rw [kept]
      exact ih rest.length (size ▸ family.readRound_decreases _ _ _ step) later rest rfl

end

end TaggedParams

/-! ## The families -/

section Headers
variable (close : Text) (read : Text → Option (Text × Option Bool))

lemma headerUpTo_refused (text tail : Text) (refused : headerUpTo close read text = .refused) :
    headerUpTo close read (text ++ tail) = .refused := by
  rw [headerUpTo] at refused ⊢
  split at refused
  next => cases refused
  next attrs rest found =>
    rw [find_append found]
    dsimp only
    split at refused
    · cases refused
    · rfl

lemma headerUpTo_done (text tail key : Text) (string : Option Bool)
    (rest : Text) (done : headerUpTo close read text = .done key string rest) :
    headerUpTo close read (text ++ tail) = .done key string (rest ++ tail) := by
  rw [headerUpTo] at done ⊢
  split at done
  next => cases done
  next attrs after found =>
    rw [find_append found]
    dsimp only
    split at done
    · cases done
      rfl
    · cases done

end Headers

/-- What stands between the newlines around a value grows with it. -/
lemma trimWrappingNewlines_grows (text tail : Text) :
    trimWrappingNewlines text <+: trimWrappingNewlines (text ++ tail) := by
  have front : ∀ value : Text, value ≠ [] →
      (if (value ++ tail).head? = some '\n' then (value ++ tail).tail
        else value ++ tail) =
        (if value.head? = some '\n' then value.tail else value) ++ tail := by
    intro value filled
    obtain ⟨c, rest, rfl⟩ := exists_cons_of_ne_nil filled
    by_cases newline : c = '\n'
    · simp [newline]
    · simp [newline]
  have back : ∀ value : Text, (if value.getLast? = some '\n' then value.dropLast else value) <+:
        if (value ++ tail).getLast? = some '\n' then (value ++ tail).dropLast
        else value ++ tail := by
    intro value
    have shorter : (if value.getLast? = some '\n' then value.dropLast else value) <+: value := by
      split
      · exact dropLast_prefix value
      · exact prefix_rfl
    by_cases nothing : tail = []
    · rw [nothing, append_nil]
    · by_cases newline : (value ++ tail).getLast? = some '\n'
      · rw [if_pos newline, dropLast_append_of_ne_nil nothing]
        exact shorter.trans (prefix_append _ _)
      · rw [if_neg newline]
        exact shorter.trans (prefix_append _ _)
  by_cases empty : text = []
  · rw [empty]
    exact nil_prefix
  · rw [trimWrappingNewlines, trimWrappingNewlines, front text empty]
    exact back _

lemma qwen3_steady : qwen3Params.Steady where
  next := by decide +kernel
  valueEnd := by decide +kernel
  refused := headerUpTo_refused ['>'] keyHeader
  done := headerUpTo_done ['>'] keyHeader
  trim := trimWrappingNewlines_grows

lemma dsml_steady : dsmlParams.Steady where
  next := by decide +kernel
  valueEnd := by decide +kernel
  refused := headerUpTo_refused _ _
  done := headerUpTo_done _ _
  trim := prefix_append

lemma k3_steady : k3Params.Steady where
  next := by decide +kernel
  valueEnd := by decide +kernel
  refused := headerUpTo_refused _ _
  done := headerUpTo_done _ _
  trim := prefix_append

/-- The arguments text read from a body while decoding goes on is a beginning
of the text read from every longer body, whether decoding has ended there or
not. -/
def TaggedParams.ArgsGrow (family : TaggedParams) : Prop :=
  ∀ (context : ParamsContext) (body longer : Text), body <+: longer →
    ((family.read { context with finished := false } body).call
        { context with finished := false }).args <+:
      ((family.read context longer).call context).args

lemma TaggedParams.Steady.argsGrow {family : TaggedParams}
    (steady : family.Steady) : family.ArgsGrow := by
  rintro ctx body _ ⟨tail, rfl⟩
  exact readFrom_kept steady .new body tail

/-- Streamed arguments only grow for Qwen3-Coder, DSML and Kimi K3. -/
theorem tagged_args_grow : qwen3Params.ArgsGrow ∧ dsmlParams.ArgsGrow ∧ k3Params.ArgsGrow :=
  ⟨qwen3_steady.argsGrow, dsml_steady.argsGrow, k3_steady.argsGrow⟩

end Joshua
