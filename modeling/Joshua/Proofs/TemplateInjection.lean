/-
Module: Joshua.Proofs.TemplateInjection
Purpose: When the messages a template is given are free of control-token
  strings.  Escaping runs before arguments given as text are read as JSON, so
  the answer depends on what those texts decode to.
Trusted boundary: none
-/
import Joshua.Proofs.TemplateEscaping

namespace Joshua
open Joshua.Foundation List
open OrderedMap (get keys mem_insert)

/-- Every string inside a message as the template sees it. -/
def Msg.strings (msg : Msg) : List Text :=
  [msg.role, msg.content] ++ msg.name.toList ++ msg.toolCallId.toList ++
    msg.reasoningContent.toList ++
    msg.toolCalls.toList.flatMap fun calls => calls.value.strings

/-- No control-token string in any string of the message. -/
def Msg.Clean (specials : List Text) (msg : Msg) : Prop :=
  ∀ text ∈ msg.strings, CleanText specials text

/-! ## Messages after escaping -/

lemma map_eq_self {α : Type} {f : α → α} {value : Option α}
    (same : ∀ inner ∈ value, f inner = inner) : value.map f = value := by
  cases value with
  | none => rfl
  | some inner => exact congrArg some (same inner rfl)

/-- A message that needs no escaping is not changed by it. -/
lemma ChatMessage.escape_of_calm {specials : List Text} {message : ChatMessage}
    (calm : message.needsEscaping specials = false) : message.escape specials = message := by
  simp only [needsEscaping, any_eq_false, Bool.or_eq_true, not_or,
    occurs_iff, Option.any_eq_true, not_exists, not_and, jsonContains_iff] at calm
  obtain ⟨role, content, name, toolCalls, toolCallId, reasoning⟩ := message
  simp only [escape, ChatMessage.mk.injEq]
  refine ⟨?_, ?_, ?_, ?_, ?_, ?_⟩
  · exact escapeSpecials_of_clean fun special mem => (calm special mem).1.1.1.1.1
  · exact escapeSpecials_of_clean fun special mem => (calm special mem).1.1.1.1.2
  · exact map_eq_self fun inner found => escapeSpecials_of_clean
      fun special mem => (calm special mem).1.1.1.2 inner found
  · refine map_eq_self fun calls found => Subtype.ext ?_
    exact escapeJson_of_clean calls.2 fun text inside special mem =>
      (calm special mem).2 calls found text inside
  · exact map_eq_self fun inner found => escapeSpecials_of_clean
      fun special mem => (calm special mem).1.1.2 inner found
  · exact map_eq_self fun inner found => escapeSpecials_of_clean
      fun special mem => (calm special mem).1.2 inner found

/-- Sanitizing escapes every message, whether or not it finds anything to
do. -/
lemma sanitizeMessages_eq_map (messages : List ChatMessage) (specials : List Text) :
    sanitizeMessages messages specials = messages.map (ChatMessage.escape specials) := by
  rw [sanitizeMessages]
  split
  next skip =>
    have calm : ∀ msg ∈ messages, msg.needsEscaping specials = false := by
      intro msg mem
      rw [Bool.or_eq_true, List.isEmpty_iff] at skip
      rcases skip with empty | calm
      · rw [empty]
        rfl
      · simp only [messagesNeedEscaping, Bool.not_eq_true', any_eq_false, Bool.not_eq_true] at calm
        exact calm msg mem
    conv_lhs => rw [← map_id messages]
    apply map_congr_left
    intro msg mem
    exact (ChatMessage.escape_of_calm (calm msg mem)).symm
  next => rfl

/-! ## Arguments -/

variable {parse : Text → Option Json} {specials : List Text}

section Arguments

/-- The function objects of the calls in a value. -/
def Json.functions : Json → List (List (Text × Json))
  | .array items =>
    items.filterMap fun item =>
      match item.get "function".toList with
      | some (.object function) => some function
      | _ => none
  | _ => []

variable {function : List (Text × Json)}

lemma Json.mem_functions {items : List Json} : function ∈ (Json.array items).functions ↔
      ∃ item ∈ items, item.get "function".toList = some (.object function) := by
  rw [functions, mem_filterMap]
  apply exists_congr
  intro item
  apply and_congr_right
  intro _
  split
  next other found => rw [found, Option.some.injEq, Option.some.injEq, Json.object.injEq]
  next different =>
    constructor
    · intro never
      cases never
    · intro found
      exact absurd found (different function)

variable {item calls : Json}

/-- Turning the arguments of a clean call into an object leaves it clean
exactly when the new key and the new object are. -/
lemma objectArguments_clean_iff (clean : item.Clean specials) :
    (objectArguments parse item).Clean specials ↔
      ∀ function, item.get "function".toList = some (.object function) →
      ∀ object, argumentsObject parse (get "arguments".toList function) = some object →
        CleanText specials "arguments".toList ∧ object.Clean specials := by
  cases item with
  | object fields =>
    simp only [objectArguments, Json.get]
    cases search : get "function".toList fields with
    | none => simpa using clean
    | some value =>
      cases value with
      | object function =>
        have mem := OrderedMap.mem_of_get search
        have cleanField := Json.clean_object.mp clean _ mem
        simp only [Option.some.injEq, Json.object.injEq, forall_eq']
        cases change : argumentsObject parse (get "arguments".toList function) with
        | none => simpa using clean
        | some object =>
          simp only [Option.some.injEq, forall_eq']
          rw [Json.clean_object]
          constructor
          · intro cleanAll
            have inner := (cleanAll _ (mem_insert.mpr (.inl rfl))).2
            exact Json.clean_object.mp inner _ (mem_insert.mpr (.inl rfl))
          · intro condition field inside
            rcases mem_insert.mp inside with rfl | ⟨old, _⟩
            · refine ⟨cleanField.1, Json.clean_object.mpr ?_⟩
              intro argument within
              rcases mem_insert.mp within with rfl | ⟨old, _⟩
              · exact condition
              · exact Json.clean_object.mp cleanField.2 argument old
            · exact Json.clean_object.mp clean field old
      | array _ | string _ | null | bool _ | number _ => simpa using clean
  | array _ | string _ | null | bool _ | number _ => simpa [objectArguments, Json.get] using clean

lemma argumentsChange_iff : argumentsChange parse item = true ↔
      ∃ function, item.get "function".toList = some (.object function) ∧
        ∃ object, argumentsObject parse (get "arguments".toList function) = some object := by
  rw [argumentsChange]
  split
  next function found =>
    simp only [Option.isSome_iff_exists, found, Option.some.injEq, Json.object.injEq,
      exists_eq_left']
  next different =>
    constructor
    · intro never
      cases never
    · rintro ⟨function, found, _⟩
      exact absurd found (different function)

/-- What a template sees of clean calls is clean exactly when the new
arguments are. -/
lemma templateToolCalls_clean_iff (clean : calls.Clean specials) (objects : Bool) :
    (∀ seen ∈ templateToolCalls parse calls objects, seen.value.Clean specials) ↔
      (objects = true → ∀ function ∈ calls.functions, ∀ object, argumentsObject parse
          (get "arguments".toList function) = some object →
        CleanText specials "arguments".toList ∧ object.Clean specials) := by
  cases calls with
  | array items =>
    simp only [Json.mem_functions]
    rw [templateToolCalls]
    split
    next empty =>
      have nothing := List.isEmpty_iff.mp empty
      subst nothing
      simp
    next =>
      split
      next change =>
        rw [Bool.and_eq_true] at change
        simp only [Option.mem_def, Option.some.injEq, forall_eq',
          Cow.value, Json.clean_array, forall_mem_map]
        have each : ∀ item ∈ items, ((objectArguments parse item).Clean specials ↔ _) :=
          fun item mem => objectArguments_clean_iff (Json.clean_array.mp clean item mem)
        constructor
        · rintro cleanAll _ function ⟨item, mem, found⟩ object changed
          exact (each item mem).mp (cleanAll item mem) function found object changed
        · intro condition item mem
          apply (each item mem).mpr
          intro function found object changed
          exact condition change.1 function ⟨item, mem, found⟩ object changed
      next same =>
        refine iff_of_true ?_ ?_
        · intro seen found
          cases found
          exact clean
        · rintro wanted function ⟨item, mem, found⟩ object changed
          refine absurd ?_ same
          rw [Bool.and_eq_true, any_eq_true]
          exact ⟨wanted, item, mem, argumentsChange_iff.mpr ⟨function, found, object, changed⟩⟩
  | object _ | string _ | null | bool _ | number _ =>
    simpa [templateToolCalls, Json.functions, Cow.value] using clean

/-- What the arguments of a call must be for the template to get no
control-token string: the key itself has none, and neither has the object that
an escaped argument text decodes to. -/
def ArgumentsClean (parse : Text → Option Json) (specials : List Text)
    (function : List (Text × Json)) : Prop :=
  CleanText specials "arguments".toList ∧ ∀ text,
      get "arguments".toList function = some (.string text) →
      ∀ object, argumentsObject parse
          (some (.string (escapeSpecials specials text))) = some object →
        object.Clean specials

section
variable (control : ControlStrings specials)
include control

lemma escaped_arguments_iff (wellFormed : (Json.object function).WellFormed) :
    (∀ object, argumentsObject parse (get "arguments".toList
          (escapeObject specials (escapeJson specials) function)) = some object →
        CleanText specials "arguments".toList ∧ object.Clean specials) ↔
      ArgumentsClean parse specials function := by
  have get_eq : get "arguments".toList
      (escapeObject specials (escapeJson specials) function) =
        (escapeJson specials (.object function)).get "arguments".toList := by
    rw [escapeJson_object wellFormed]
    rfl
  have blank : (Json.object []).Clean specials := Json.clean_object.mpr (by simp)
  rw [get_eq, ArgumentsClean]
  by_cases clean : CleanText specials "arguments".toList
  · rw [get_escapeJson control clean (by decide) wellFormed, Json.get]
    simp only [clean, true_and]
    cases search : get "arguments".toList function with
    | none => simpa [argumentsObject] using blank
    | some value =>
      cases value with
      | string text =>
        simp only [Option.some.injEq, Json.string.injEq, forall_eq']
        exact Iff.rfl
      | null => simpa [argumentsObject, escapeJson, escapeJsonWithin] using blank
      | array _ | object _ | bool _ | number _ =>
        simp [argumentsObject, escapeJson, escapeJsonWithin]
  · rw [get_escapeJson_dirty control clean wellFormed]
    simp only [argumentsObject, Option.some.injEq, forall_eq', clean, false_and]

lemma escaped_functions (wellFormed : calls.WellFormed) :
    function ∈ (escapeJson specials calls).functions ↔ CleanText specials "function".toList ∧
        ∃ old ∈ calls.functions, (Json.object old).WellFormed ∧
          escapeObject specials (escapeJson specials) old = function := by
  cases calls with
  | array items =>
    rw [escapeJson_array wellFormed]
    simp only [Json.mem_functions, mem_map, exists_exists_and_eq_and]
    rw [Json.wellFormed_array] at wellFormed
    by_cases clean : CleanText specials "function".toList
    · have lookup : ∀ item ∈ items, (escapeJson specials item).get "function".toList =
            (item.get "function".toList).map (escapeJson specials) :=
        fun item mem => get_escapeJson control clean (by decide) (wellFormed item mem)
      constructor
      · rintro ⟨item, mem, found⟩
        rw [lookup item mem, Option.map_eq_some_iff] at found
        obtain ⟨value, inside, escaped⟩ := found
        have innerWellFormed := (wellFormed item mem).of_get inside
        cases value with
        | object old =>
          rw [escapeJson_object innerWellFormed, Json.object.injEq] at escaped
          exact ⟨clean, old, ⟨item, mem, inside⟩, innerWellFormed, escaped⟩
        | array _ | string _ | null | bool _ | number _ =>
          simp [escapeJson, escapeJsonWithin] at escaped
      · rintro ⟨_, old, ⟨item, mem, inside⟩, innerWellFormed, escaped⟩
        refine ⟨item, mem, ?_⟩
        rw [lookup item mem, inside, Option.map_some, escapeJson_object innerWellFormed, escaped]
    · have lookup : ∀ item ∈ items, (escapeJson specials item).get "function".toList = none :=
        fun item mem => get_escapeJson_dirty control clean (wellFormed item mem)
      constructor
      · rintro ⟨item, mem, found⟩
        rw [lookup item mem] at found
        cases found
      · rintro ⟨never, _⟩
        exact absurd never clean
  | object _ | string _ | null | bool _ | number _ =>
    simp [escapeJson, escapeJsonWithin, Json.functions]

/-- The calls of a message, escaped and then turned into objects. -/
lemma escaped_calls_clean_iff (calls : ToolCalls) (objects : Bool) :
    (∀ seen ∈ templateToolCalls parse (calls.escape specials).1 objects,
        seen.value.Clean specials) ↔
      (objects = true → CleanText specials "function".toList → ∀ function ∈ calls.1.functions,
          ArgumentsClean parse specials function) := by
  rw [ToolCalls.escape, templateToolCalls_clean_iff (escapeJson_clean control calls.2)]
  apply imp_congr_right
  intro _
  have wellFormed : ∀ function ∈ calls.1.functions, (Json.object function).WellFormed := by
    obtain ⟨value, valueWellFormed⟩ := calls
    cases value with
    | array items =>
      intro function mem
      obtain ⟨item, inside, found⟩ := Json.mem_functions.mp mem
      exact (Json.wellFormed_array.mp valueWellFormed item inside).of_get found
    | object _ | string _ | null | bool _ | number _ =>
      intro function never
      cases never
  constructor
  · intro condition clean function mem
    apply (escaped_arguments_iff control (wellFormed function mem)).mp
    exact condition _ ((escaped_functions control calls.2).mpr
      ⟨clean, function, mem, wellFormed function mem, rfl⟩)
  · intro condition function mem
    obtain ⟨clean, old, inside, oldWellFormed, rfl⟩ := (escaped_functions control calls.2).mp mem
    exact (escaped_arguments_iff control oldWellFormed).mpr (condition clean old inside)

end

end Arguments

/-! ## What the template is given -/

section Rendering

def ChatMessage.functions (message : ChatMessage) : List (List (Text × Json)) :=
  message.toolCalls.toList.flatMap fun calls => calls.1.functions

/-- The arguments of every call in a conversation decode to clean objects, if
the key that leads to them survives escaping at all. -/
def ConversationClean (parse : Text → Option Json) (specials : List Text)
    (messages : List ChatMessage) : Prop :=
  CleanText specials "function".toList → ∀ message ∈ messages, ∀ function ∈ message.functions,
      ArgumentsClean parse specials function

lemma Msg.clean_iff {msg : Msg} : msg.Clean specials ↔
      CleanText specials msg.role ∧ CleanText specials msg.content ∧
        (∀ name ∈ msg.name, CleanText specials name) ∧
        (∀ id ∈ msg.toolCallId, CleanText specials id) ∧
        (∀ reasoning ∈ msg.reasoningContent, CleanText specials reasoning) ∧
        ∀ seen ∈ msg.toolCalls, seen.value.Clean specials := by
  simp only [Clean, strings, Json.Clean, mem_append, mem_cons,
    not_mem_nil, or_false, Option.mem_toList, mem_flatMap, or_imp,
    forall_and, forall_eq, and_assoc, forall_exists_index, and_imp]
  refine and_congr_right fun _ => and_congr_right fun _ =>
    and_congr_right fun _ => and_congr_right fun _ =>
    and_congr_right fun _ => ?_
  exact ⟨fun clean seen found text mem => clean text seen found mem,
    fun clean text seen found mem => clean seen found text mem⟩

lemma escaped_option_clean (control : ControlStrings specials) (value : Option Text) :
    ∀ text ∈ value.map (escapeSpecials specials), CleanText specials text := by
  intro text mem
  obtain ⟨old, _, rfl⟩ := Option.map_eq_some_iff.mp mem
  exact escapeSpecials_clean control old

lemma escaped_msgs_clean_iff (control : ControlStrings specials) (parse : Text → Option Json)
    (messages : List ChatMessage) (objects : Bool) :
    (∀ msg ∈ msgs parse (messages.map (ChatMessage.escape specials)) objects, msg.Clean specials) ↔
      (objects = true → ConversationClean parse specials messages) := by
  have each : ∀ message : ChatMessage,
      (∀ seen ∈ (message.escape specials).toolCalls.bind fun calls =>
          templateToolCalls parse calls.1 objects,
        seen.value.Clean specials) ↔
        (objects = true → CleanText specials "function".toList → ∀ function ∈ message.functions,
            ArgumentsClean parse specials function) := by
    intro message
    rw [ChatMessage.functions, ChatMessage.escape]
    cases message.toolCalls with
    | none => simp
    | some calls => simpa using escaped_calls_clean_iff control calls objects
  simp only [msgs, forall_mem_map, Msg.clean_iff]
  constructor
  · intro clean wanted key message mem
    exact (each message).mp (clean message mem).2.2.2.2.2 wanted key
  · intro condition message mem
    refine ⟨escapeSpecials_clean control _, escapeSpecials_clean control _,
      escaped_option_clean control _, escaped_option_clean control _,
      escaped_option_clean control _, (each message).mpr ?_⟩
    intro wanted key
    exact condition wanted key message mem

/-- The template is given no control-token string exactly when no argument
text decodes to one. -/
theorem ChatTemplate.renderInner_clean_iff {template : ChatTemplate}
    {render : List Msg → Except RenderError Text} (control : ControlStrings template.specialTokens)
    (compiled : template.compile = .ok render) (parse : Text → Option Json)
    (messages : List ChatMessage) :
    (∀ handed ∈ (template.renderInner parse messages).handed,
      ∀ msg ∈ handed, msg.Clean template.specialTokens) ↔
      ConversationClean parse template.specialTokens messages := by
  have withObjects := escaped_msgs_clean_iff control parse messages true
  have plain := (escaped_msgs_clean_iff control parse messages false).mpr nofun
  rw [← sanitizeMessages_eq_map] at withObjects plain
  rw [renderInner, compiled]
  simp only [true_implies] at withObjects
  dsimp only
  split
  next => simpa using withObjects
  next =>
    -- the second list has the client's own arguments
    split
    · rw [forall_mem_cons, forall_mem_singleton, withObjects]
      exact and_iff_left plain
    · simpa using withObjects

/-! A conversation that smuggles a control-token string in through an escape
sequence of its arguments, and one that tries to in its content. -/

def imStart : Text := "<|im_start|>".toList

/-- A template for models with the one control token. -/
def plainTemplate : ChatTemplate where
  specialTokens := [imStart]
  compile := .ok fun _ => .ok []

/-- The text `{"a":"\u003c|im_start|>"}`. -/
def smuggledArguments : Text :=
  "\x7b\"a\":\"\\u003c|im_start|>\"\x7d".toList

/-- How a JSON reader reads that text and an empty object. -/
def smuggledParse (text : Text) : Option Json :=
  if text = smuggledArguments then some (.object [(['a'], .string imStart)])
  else if text = "\x7b\x7d".toList then some (.object [])
  else none

def callWith (arguments : Text) : ToolCalls :=
  ⟨.array [.object [("function".toList, .object [("arguments".toList, .string arguments)])]],
    by simp [Json.WellFormed, Json.WellFormedItems, Json.WellFormedFields, OrderedMap.keys]⟩

def messageWith (content arguments : Text) : ChatMessage where
  role := "assistant".toList
  content := content
  name := none
  toolCalls := some (callWith arguments)
  toolCallId := none
  reasoningContent := none

theorem renderInner_smuggles : ControlStrings [imStart] ∧
      ∃ handed ∈ (plainTemplate.renderInner smuggledParse
          [messageWith [] smuggledArguments]).handed,
        ∃ msg ∈ handed, ¬ msg.Clean [imStart] := by
  refine ⟨by decide, _, mem_cons_self, _, mem_cons_self, ?_⟩
  intro clean
  exact clean imStart (by decide) imStart mem_cons_self infix_rfl

theorem renderInner_clean_iff_of_content : ControlStrings plainTemplate.specialTokens ∧
      ∀ handed ∈ (plainTemplate.renderInner smuggledParse
          [messageWith imStart "\x7b\x7d".toList]).handed,
        ∀ msg ∈ handed, msg.Clean plainTemplate.specialTokens := by
  refine ⟨by decide, (ChatTemplate.renderInner_clean_iff (by decide) rfl _ _).mpr ?_⟩
  intro _ message member function inside
  rw [List.mem_singleton] at member
  subst member
  have only := List.mem_singleton.mp inside
  subst only
  refine ⟨by decide, ?_⟩
  intro text found object changed
  cases found
  have empty : some (Json.object []) = some object := changed
  cases empty
  intro inner impossible
  cases impossible

/-- Escaping a conversation again changes nothing. -/
theorem sanitizeMessages_twice (control : ControlStrings specials) (messages : List ChatMessage) :
    sanitizeMessages (sanitizeMessages messages specials) specials =
      sanitizeMessages messages specials := by
  have texts := fun text => escapeSpecials_of_clean (escapeSpecials_clean control text)
  have calls : ∀ calls : ToolCalls,
      (calls.escape specials).escape specials = calls.escape specials := fun calls =>
    Subtype.ext (escapeJson_of_clean (calls.escape specials).2 (escapeJson_clean control calls.2))
  simp [sanitizeMessages_eq_map, ChatMessage.escape, Function.comp_def, texts, calls]

theorem sanitizeMessages_twice_imStart :
    let once := sanitizeMessages [messageWith imStart imStart] [imStart]
    sanitizeMessages once [imStart] = once :=
  sanitizeMessages_twice (by decide) _

end Rendering

end Joshua
