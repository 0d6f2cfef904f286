/-
Module: Joshua.Model.ToolArgs
Purpose: Arguments written as one parameter per tag: the JSON object that is
  put together while they arrive, and the families that write them.
Trusted boundary: the JSON library escapes a string character by character
  and is otherwise the parameter `json`
-/
import Joshua.Model.ToolStream

namespace Joshua
open Joshua.Foundation

/-! ## JSON text -/

/-- The JSON library: the characters a character of a string is written as,
and the compact form of the value that a text spells. -/
structure JsonText where
  escape : Char → Text
  compact : Text → Option Text

namespace JsonText

variable (json : JsonText)

/-- A string without its closing quote. -/
def quoteOpen (text : Text) : Text :=
  '"' :: text.flatMap json.escape

/-- `Value::from(text).to_string()`. -/
def quote (text : Text) : Text :=
  json.quoteOpen text ++ ['"']

/-- `canonical`. -/
def canonical (raw : Text) : Text :=
  (json.compact raw).getD raw

/-- The text of the value that `convert` gives. -/
def convert (text : Text) (string : Bool) : Text :=
  if string then json.quote text
  else (json.compact (trim text)).getD (json.quote text)

end JsonText

/-! ## The arguments object -/

/-- `ArgsJson`: the object up to the last finished parameter. -/
structure ArgsJson where
  text : Text
deriving Repr, DecidableEq

namespace ArgsJson

def new : ArgsJson :=
  ⟨['{']⟩

variable (json : JsonText)

section
variable (args : ArgsJson)

/-- The object up to the value of a new key. -/
def key (name : Text) : Text :=
  args.text ++ (if 1 < byteLength args.text then [','] else []) ++ json.quote name ++ [':']

/-- Append a finished parameter, whose value has this text. -/
def push (name value : Text) : ArgsJson :=
  ⟨args.key json name ++ value⟩

/-- The text to stream: an open string parameter stands without its closing
quote. -/
def streaming (opened : Option (Text × Text)) : Text :=
  match opened with
  | some (name, value) => args.key json name ++ json.quoteOpen value
  | none => args.text

def finish : Text :=
  args.text ++ ['}']

end

end ArgsJson

/-! ## Types of parameters -/

/-- A tool: the function's name and the schema of its parameters. -/
structure Tool where
  name : Text
  parameters : Option Json

namespace Json

/-- The items of an array under a key. -/
def itemsAt (key : Text) (schema : Json) : List Json :=
  match schema.get key with
  | some (.array items) => items
  | _ => []

lemma depth_itemsAt {key : Text} {schema item : Json}
    (member : item ∈ schema.itemsAt key) : item.depth < schema.depth := by
  rw [itemsAt] at member
  split at member
  next items found =>
    cases schema with
    | object fields =>
      have entry := OrderedMap.mem_of_get found
      exact (depth_lt_array member).trans (depth_lt_object entry)
    | array _ | string _ | null | bool _ | number _ => cases found
  next => cases member

/-- The name a schema has for the type of a literal. -/
def typeName : Json → Text
  | .string _ => "string".toList
  | .null => "null".toList
  | .bool _ => "boolean".toList
  | .number _ => "number".toList
  | .array _ => "array".toList
  | .object _ => "object".toList

/-- The types that `type` names. -/
def namedTypes (schema : Json) : List Text :=
  match schema.get "type".toList with
  | some (.string name) => [name]
  | some (.array names) =>
    names.filterMap fun name =>
      match name with
      | .string name => some name
      | _ => none
  | _ => []

/-- The literals of `enum` and `const`. -/
def literals (schema : Json) : List Json :=
  schema.itemsAt "enum".toList ++ (schema.get "const".toList).toList

def choices (schema : Json) : List Json :=
  schema.itemsAt "anyOf".toList ++ schema.itemsAt "oneOf".toList ++ schema.itemsAt "allOf".toList

lemma depth_choices {schema option : Json}
    (member : option ∈ schema.choices) : option.depth < schema.depth := by
  simp only [choices, List.mem_append] at member
  rcases member with (first | second) | third
  · exact depth_itemsAt first
  · exact depth_itemsAt second
  · exact depth_itemsAt third

/-- `schema_types`, as a list. -/
def schemaTypes (schema : Json) : List Text :=
  schema.namedTypes ++ schema.literals.map typeName ++
    schema.choices.attach.flatMap fun option => schemaTypes option.1
termination_by schema.depth
decreasing_by exact depth_choices option.2

end Json

/-- `string_param`. -/
def stringParam (tools : List Tool) (function key : Text) : Bool :=
  let schema := (((tools.find? fun tool => tool.name = function).bind
    Tool.parameters).bind (Json.get "properties".toList)).bind (Json.get key)
  match schema with
  | none => false
  | some schema =>
    let types := schema.schemaTypes
    types ≠ [] && types.all (· = "string".toList)

/-! ## Tagged parameters -/

/-- The rest of a parameter's opening tag; `string` is what the tag tells of
the value's type, and `rest` the text behind the tag. -/
inductive Header
  | waiting
  | refused
  | done (key : Text) (string : Option Bool) (rest : Text)
deriving Repr, DecidableEq

/-- How a family writes one parameter per tag.  A tag is never empty and a
header is read from the front, so that reading comes to an end. -/
structure TaggedParams where
  callEnd : List Text
  next : List Text
  valueEnd : List Text
  valueClose : List Text
  header : Text → Header
  trim : Text → Text
  next_nonempty : [] ∉ next
  header_leaves : ∀ text key string rest, header text = .done key string rest → rest <:+ text

/-- The parameters of one call read so far: the object, a string parameter
still being written, and the text behind the call's end. -/
structure Params where
  args : ArgsJson
  opened : Option (Text × Text)
  rest : Option Text
deriving Repr, DecidableEq

/-- What a call's parameters are read with: the JSON library, the request's
tools, the function called and whether decoding has ended. -/
structure ParamsContext where
  json : JsonText
  tools : List Tool
  function : Text
  finished : Bool

namespace TaggedParams

variable (family : TaggedParams) (context : ParamsContext)

/-- The object with one more parameter; a parameter without a name is left
out. -/
def pushed (args : ArgsJson) (key value : Text) (string : Bool) : ArgsJson :=
  if key = [] then args
  else
    args.push context.json key (context.json.convert (family.trim value) string)

/-- At the value of a parameter. -/
def valueRound (args : ArgsJson) (key value : Text) (string : Bool) :
    Round (ArgsJson × Text) Params :=
  match cutFirst family.valueEnd value with
  | some cut =>
    .next (family.pushed context args key cut.before string,
      if cut.marker ∈ family.valueClose then cut.after
      else cut.marker ++ cut.after)
  | none =>
    if context.finished then
      .stop ⟨family.pushed context args key value string, none, none⟩
    else if string && key ≠ [] then
      .stop ⟨args, some (key, family.trim (settled family.valueEnd value)), none⟩
    else
      .stop ⟨args, none, none⟩

/-- One round of the loop of `read`. -/
def readRound (current : ArgsJson × Text) : Round (ArgsJson × Text) Params :=
  let (args, body) := current
  match cutFirst family.next body with
  | none => .stop ⟨args, none, none⟩
  | some cut =>
    if cut.marker ∈ family.callEnd then .stop ⟨args, none, some cut.after⟩
    else
      match family.header cut.after with
      | .waiting => .stop ⟨args, none, none⟩
      | .refused => .next (args, cut.after)
      | .done key string value =>
        family.valueRound context args key value
          (string.getD (stringParam context.tools context.function key))

lemma valueRound_suffix {args : ArgsJson} {key value : Text} {string : Bool}
    {later : ArgsJson × Text}
    (step : family.valueRound context args key value string = .next later) :
    later.2 <:+ value := by
  rw [valueRound] at step
  split at step
  next cut found =>
    cases step
    have whole := cutFirst_rebuild found
    have marked : cut.marker ++ cut.after <:+ value := ⟨_, whole.symm⟩
    dsimp only
    split
    · exact (List.suffix_append cut.marker cut.after).trans marked
    · exact marked
  next =>
    split at step
    · cases step
    · split at step <;> cases step

lemma readRound_decreases :
    Decreases (family.readRound context) fun current => current.2.length := by
  rintro ⟨args, body⟩ later step
  rw [readRound] at step
  dsimp only at step ⊢
  split at step
  next => cases step
  next cut found =>
    have whole := cutFirst_rebuild found
    have nonempty : 0 < cut.marker.length := by
      apply List.length_pos_of_ne_nil
      intro empty
      have member := cutFirst_marker_mem found
      rw [empty] at member
      exact family.next_nonempty member
    have shorter : cut.after.length < body.length := by
      rw [whole, List.length_append, List.length_append]
      omega
    split_ifs at step
    split at step
    next => cases step
    next =>
      cases step
      exact shorter
    next key string value done =>
      have first := (family.header_leaves _ _ _ _ done).length_le
      have second := (family.valueRound_suffix context step).length_le
      exact (second.trans first).trans_lt shorter

/-- `TaggedParams::read`. -/
def read (body : Text) : Params :=
  Loop.run (family.readRound context) (fun current => current.2.length)
    (family.readRound_decreases context) (.new, body)

end TaggedParams

/-- `tagged_call`. -/
def taggedCall (json : JsonText) (name : Text) (args : ArgsJson)
    (opened : Option (Text × Text)) (done : Bool) : PartialCall :=
  if done then
    let text :=
      match opened with
      | some (key, value) => (args.push json key (json.quote value)).finish
      | none => args.finish
    ⟨none, name, text, some (json.canonical text)⟩
  else
    ⟨none, name, args.streaming json opened, none⟩

/-- `Params::call`. -/
def Params.call (params : Params) (context : ParamsContext) : PartialCall :=
  taggedCall context.json context.function params.args params.opened
    (params.rest.isSome || context.finished)

/-! ## The families -/

/-- One round of the search for an attribute. -/
def attributeRound (name rest : Text) : Round Text (Option Text) :=
  match find name rest with
  | none => .stop none
  | some (before, after) =>
    if (before = [] || before.getLast?.any isWhitespace) && "=\"".toList.isPrefixOf after then
      .stop ((find ['"'] (after.drop 2)).map fun found =>
        if '&' ∈ found.1 then
          replaceAll "&amp;".toList ['&'] (replaceAll "&quot;".toList ['"'] found.1)
        else found.1)
    else .next after

/-- `attribute`: every round consumes the name, so the length of the text
bounds their number. -/
def attributeOf (attrs name : Text) : Option Text :=
  (loop (attributeRound name) (attrs.length + 1) attrs).getD none

/-- A header that runs to `close` and is told by the text before it. -/
def headerUpTo (close : Text) (read : Text → Option (Text × Option Bool)) (text : Text) : Header :=
  match find close text with
  | none => .waiting
  | some (attrs, rest) =>
    match read attrs with
    | some (key, string) => .done key string rest
    | none => .refused

lemma find_suffix {pattern text front rest : Text}
    (found : find pattern text = some (front, rest)) : rest <:+ text := by
  rw [find_rebuild found, ← List.append_assoc]
  exact List.suffix_append _ _

lemma headerUpTo_leaves (close : Text) (read : Text → Option (Text × Option Bool))
    (text key : Text) (string : Option Bool) (rest : Text)
    (done : headerUpTo close read text = .done key string rest) : rest <:+ text := by
  rw [headerUpTo] at done
  split at done
  next => cases done
  next attrs after found =>
    split at done
    · cases done
      exact find_suffix found
    · cases done

/-- `trim_wrapping_newlines`. -/
def trimWrappingNewlines (value : Text) : Text :=
  let value := if value.head? = some '\n' then value.tail else value
  if value.getLast? = some '\n' then value.dropLast else value

def functionTagEnd : Text := "</function>".toList
def parameterTag : Text := "<parameter=".toList
def parameterTagEnd : Text := "</parameter>".toList

/-- A tag whose text is the key. -/
def keyHeader (attrs : Text) : Option (Text × Option Bool) :=
  some (trim attrs, none)

lemma qwen3_next_nonempty : [] ∉ [parameterTag, functionTagEnd] := by
  decide

/-- `QWEN3_PARAMS`. -/
def qwen3Params : TaggedParams where
  callEnd := [functionTagEnd]
  next := [parameterTag, functionTagEnd]
  valueEnd := [parameterTagEnd, parameterTag, functionTagEnd]
  valueClose := [parameterTagEnd]
  header := headerUpTo ['>'] keyHeader
  trim := trimWrappingNewlines
  next_nonempty := qwen3_next_nonempty
  header_leaves := headerUpTo_leaves _ _

/-- The ends of a call and of a block of calls. -/
def dsmlCallEnd : List Text :=
  ["</｜DSML｜invoke>".toList, "</｜DSML｜ invoke>".toList,
    "</｜DSML｜function_calls>".toList, "</｜DSML｜tool_calls>".toList, "</｜DSML｜ calls>".toList]

def dsmlParameter : List Text :=
  ["<｜DSML｜parameter".toList, "<｜DSML｜ parameter".toList]

def dsmlParameterEnd : List Text :=
  ["</｜DSML｜parameter>".toList, "</｜DSML｜ parameter>".toList]

/-- What a tag with attributes tells: the key and, when it is given, whether
the value is a string. -/
def attributeHeader (name kind string : Text) (attrs : Text) : Option (Text × Option Bool) :=
  (attributeOf attrs name).map fun key => (key, (attributeOf attrs kind).map (· = string))

lemma dsml_next_nonempty : [] ∉ dsmlParameter ++ dsmlCallEnd := by
  decide

/-- `DSML_PARAMS`. -/
def dsmlParams : TaggedParams where
  callEnd := dsmlCallEnd
  next := dsmlParameter ++ dsmlCallEnd
  valueEnd := dsmlParameterEnd ++ dsmlParameter ++
    ["</｜DSML｜invoke>".toList, "</｜DSML｜ invoke>".toList]
  valueClose := dsmlParameterEnd
  header := headerUpTo ['>'] (attributeHeader "name".toList "string".toList "true".toList)
  trim := id
  next_nonempty := dsml_next_nonempty
  header_leaves := headerUpTo_leaves _ _

def k3CallEnd : Text := "<|close|>call<|sep|>".toList
def k3Argument : Text := "<|open|>argument".toList
def k3ArgumentEnd : Text := "<|close|>argument<|sep|>".toList

lemma k3_next_nonempty : [] ∉ [k3Argument, k3CallEnd] := by
  decide

/-- `K3_PARAMS`. -/
def k3Params : TaggedParams where
  callEnd := [k3CallEnd]
  next := [k3Argument, k3CallEnd]
  valueEnd := [k3ArgumentEnd, k3Argument, k3CallEnd]
  valueClose := [k3ArgumentEnd]
  header := headerUpTo "<|sep|>".toList (attributeHeader "key".toList "type".toList "string".toList)
  trim := id
  next_nonempty := k3_next_nonempty
  header_leaves := headerUpTo_leaves _ _

end Joshua
