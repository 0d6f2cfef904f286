/-
Module: Joshua.Model.Template
Purpose: How a conversation reaches a chat template: control-token strings in
  the client's texts are broken up, tool-call arguments given as text become
  objects, and the template is rendered, once more with the client's own
  arguments when it cannot take objects.
Trusted boundary: the JSON reader is the parameter `parse`; the template
  engine is the parameter `ChatTemplate.compile`
-/
import Joshua.Model.Text

namespace Joshua
open Joshua.Foundation List
open OrderedMap (get insert keys keys_insert_nodup mem_insert remove)

/-! ## Breaking up control-token strings -/

/-- `ESCAPE`: the zero-width space put after the first character of a
control-token string. -/
def escapeMark : Char := '\u200b'

/-- Break up one control-token string wherever it occurs. -/
def escapeSpecial (text special : Text) : Text :=
  match special with
  | [] => text
  | first :: tail =>
    if occurs special text then
      replaceAll special (first :: escapeMark :: tail) text
    else
      text

/-- `escape_specials`, without the distinction whether the text was copied. -/
def escapeSpecials (specials : List Text) (text : Text) : Text :=
  if specials.any fun special => occurs special text then
    specials.foldl escapeSpecial text
  else
    text

mutual

/-- `json_contains`: whether a string occurs in a key or a string value. -/
def jsonContains (special : Text) : Json → Bool
  | .string text => occurs special text
  | .array items => itemsContain special items
  | .object fields => fieldsContain special fields
  | _ => false

def itemsContain (special : Text) : List Json → Bool
  | [] => false
  | item :: rest => jsonContains special item || itemsContain special rest

def fieldsContain (special : Text) : List (Text × Json) → Bool
  | [] => false
  | (key, value) :: rest =>
    occurs special key || jsonContains special value ||
      fieldsContain special rest

end

section
variable (keys : List Text)

/-- One more mark while the key is taken. -/
def freshKeyRound (key : Text) : Round Text Text :=
  if key ∈ keys then .next (key ++ [escapeMark]) else .stop key

/-- Only keys at least as long can be in the way. -/
def freshKeyMeasure (key : Text) : Nat :=
  keys.countP fun other => key.length ≤ other.length

lemma freshKeyRound_decreases : Decreases (freshKeyRound keys) (freshKeyMeasure keys) := by
  intro key later step
  rw [freshKeyRound] at step
  split at step
  next taken =>
    cases step
    rw [freshKeyMeasure, freshKeyMeasure]
    obtain ⟨before, after, rfl⟩ := append_of_mem taken
    have fewer : ∀ others : List Text, others.countP (fun other =>
          decide ((key ++ [escapeMark]).length ≤ other.length)) ≤
          others.countP fun other => decide (key.length ≤ other.length) := by
      intro others
      apply countP_mono_left
      intro other _ longer
      simp only [length_append, length_singleton, decide_eq_true_eq] at longer ⊢
      omega
    have first := fewer before
    have second := fewer after
    simp only [countP_append, countP_cons, length_append, length_singleton] at first second ⊢
    simp only [Nat.not_succ_le_self, decide_false, Bool.false_eq_true,
      if_false, Nat.le_refl, decide_true, if_true]
    omega
  next => cases step

/-- The loop that makes an escaped key different from every key left. -/
def freshKey (key : Text) : Text :=
  Loop.run (freshKeyRound keys) (freshKeyMeasure keys) (freshKeyRound_decreases keys) key

lemma freshKey_spec (key : Text) : freshKey keys key ∉ keys ∧
      ∃ count, freshKey keys key = key ++ List.replicate count escapeMark := by
  have grows : ∀ candidate later : Text,
      (∃ count, candidate = key ++ List.replicate count escapeMark) →
      freshKeyRound keys candidate = .next later →
      ∃ count, later = key ++ List.replicate count escapeMark := by
    intro candidate later ⟨count, grown⟩ step
    rw [freshKeyRound] at step
    split at step
    · cases step
      exact ⟨count + 1, by
        rw [grown, replicate_succ', append_assoc]⟩
    · cases step
  have stops : ∀ candidate result : Text,
      (∃ count, candidate = key ++ List.replicate count escapeMark) →
      freshKeyRound keys candidate = .stop result →
      result ∉ keys ∧ ∃ count, result = key ++ List.replicate count escapeMark := by
    intro candidate result grown step
    rw [freshKeyRound] at step
    split at step
    · cases step
    · cases step
      exact ⟨‹_›, grown⟩
  exact Loop.run_rule (freshKeyRound_decreases keys) grows stops ⟨0, by simp⟩

end

/-- One key of an object: a key with a control-token string is renamed, any
other keeps its place. -/
def escapeField (specials : List Text) (escape : Json → Json)
    (fields : List (Text × Json)) (key : Text) : List (Text × Json) :=
  if specials.any fun special => occurs special key then
    match remove key fields with
    | some (value, left) =>
      insert
        (freshKey (keys left) (escapeSpecials specials key))
        (escape value) left
    | none => fields
  else
    match get key fields with
    | some value => insert key (escape value) fields
    | none => fields

/-- The loop over the keys an object has at the start. -/
def escapeObject (specials : List Text) (escape : Json → Json)
    (fields : List (Text × Json)) : List (Text × Json) :=
  (keys fields).foldl (escapeField specials escape) fields

/-- `escape_json` down to a given depth. -/
def escapeJsonWithin (specials : List Text) : Nat → Json → Json
  | 0, value => value
  | _ + 1, .string text => .string (escapeSpecials specials text)
  | depth + 1, .array items => .array (items.map (escapeJsonWithin specials depth))
  | depth + 1, .object fields =>
    .object (escapeObject specials (escapeJsonWithin specials depth) fields)
  | _ + 1, value => value

/-- `escape_json`: the depth of the value is all the recursion needs. -/
def escapeJson (specials : List Text) (value : Json) : Json :=
  escapeJsonWithin specials (value.depth + 1) value

section EscapeField
variable {specials : List Text} {escape : Json → Json}

/-- What one key does to an object. -/
lemma escapeField_cases (fields : List (Text × Json)) (key : Text) :
    (key ∉ keys fields ∧ escapeField specials escape fields key = fields) ∨
    (∃ value, (∀ special ∈ specials, ¬ special <:+: key) ∧ (key, value) ∈ fields ∧
      escapeField specials escape fields key = insert key (escape value) fields) ∨
    (∃ value left count, (∃ special ∈ specials, special <:+: key) ∧
      ((key, value) :: left).Perm fields ∧
      escapeSpecials specials key ++ List.replicate count escapeMark ∉ keys left ∧
      escapeField specials escape fields key = insert
          (escapeSpecials specials key ++ List.replicate count escapeMark)
          (escape value) left) := by
  rw [escapeField]
  split
  next dirty =>
    have found : ∃ special ∈ specials, special <:+: key := by simpa [occurs_iff] using dirty
    cases removed : remove key fields with
    | none =>
      refine .inl ⟨?_, rfl⟩
      intro present
      obtain ⟨value, left, success⟩ := OrderedMap.remove_isSome present
      rw [removed] at success
      cases success
    | some taken =>
      obtain ⟨value, left⟩ := taken
      obtain ⟨fresh, count, grown⟩ := freshKey_spec (keys left) (escapeSpecials specials key)
      refine .inr (.inr ⟨value, left, count, found, OrderedMap.remove_perm removed, ?_, ?_⟩)
      · rw [← grown]
        exact fresh
      · simp only [← grown]
  next clean =>
    have missing : ∀ special ∈ specials, ¬ special <:+: key := by
      simpa [occurs_iff, occurs_eq_false] using clean
    cases search : get key fields with
    | none => exact .inl ⟨OrderedMap.get_eq_none.mp search, rfl⟩
    | some value => exact .inr (.inl ⟨value, missing, OrderedMap.mem_of_get search, rfl⟩)

variable {fields : List (Text × Json)}

section
variable (keeps : ∀ value, value.WellFormed → (escape value).WellFormed)
include keeps

/-- An object stays well formed key by key. -/
lemma escapeField_wellFormed {key : Text} (wellFormed : (Json.object fields).WellFormed) :
    (Json.object (escapeField specials escape fields key)).WellFormed := by
  have ⟨unique, values⟩ := Json.wellFormed_object.mp wellFormed
  rcases escapeField_cases fields key with
    ⟨_, same⟩ | ⟨value, _, member, same⟩ |
    ⟨value, left, count, _, split, _, same⟩
  · rw [same]
    exact wellFormed
  · rw [same, Json.wellFormed_object]
    refine ⟨keys_insert_nodup unique, ?_⟩
    intro field inside
    rcases mem_insert.mp inside with rfl | ⟨old, _⟩
    · exact keeps value (values _ member)
    · exact values field old
  · rw [same, Json.wellFormed_object]
    refine ⟨keys_insert_nodup (OrderedMap.keys_nodup_of_perm split unique).2, ?_⟩
    intro field inside
    rcases mem_insert.mp inside with rfl | ⟨old, _⟩
    · exact keeps value (values _ (split.mem_iff.mp mem_cons_self))
    · exact values field (split.mem_iff.mp (mem_cons_of_mem _ old))

lemma escapeObject_wellFormed (wellFormed : (Json.object fields).WellFormed) :
    (Json.object (escapeObject specials escape fields)).WellFormed := by
  rw [escapeObject]
  generalize keys fields = keys
  induction keys generalizing fields with
  | nil => exact wellFormed
  | cons key rest ih => exact ih (escapeField_wellFormed keeps wellFormed)

end

end EscapeField

lemma escapeJsonWithin_wellFormed (specials : List Text) (depth : Nat) (value : Json)
    (wellFormed : value.WellFormed) : (escapeJsonWithin specials depth value).WellFormed := by
  induction depth generalizing value with
  | zero => exact wellFormed
  | succ depth ih =>
    cases value with
    | array items =>
      rw [escapeJsonWithin, Json.wellFormed_array, forall_mem_map]
      intro old inside
      exact ih old (Json.wellFormed_array.mp wellFormed old inside)
    | object fields => exact escapeObject_wellFormed ih wellFormed
    | string text | null | bool value | number text => exact trivial

/-! ## Messages -/

/-- The tool calls of a message: any JSON, in which no object has a key
twice. -/
def ToolCalls := { value : Json // value.WellFormed }

def ToolCalls.escape (specials : List Text) (calls : ToolCalls) : ToolCalls :=
  ⟨escapeJson specials calls.1, escapeJsonWithin_wellFormed specials _ calls.1 calls.2⟩

/-- The fields of a `ChatMessage` that can reach a template. -/
structure ChatMessage where
  role : Text
  content : Text
  name : Option Text
  toolCalls : Option ToolCalls
  toolCallId : Option Text
  reasoningContent : Option Text

/-- The condition of `messages_need_escaping` on one message. -/
def ChatMessage.needsEscaping (specials : List Text) (message : ChatMessage) : Bool :=
  specials.any fun special =>
    occurs special message.role || occurs special message.content ||
      message.name.any (occurs special) ||
      message.toolCallId.any (occurs special) ||
      message.reasoningContent.any (occurs special) ||
      message.toolCalls.any fun calls => jsonContains special calls.1

def messagesNeedEscaping (messages : List ChatMessage) (specials : List Text) : Bool :=
  messages.any (ChatMessage.needsEscaping specials)

def ChatMessage.escape (specials : List Text) (message : ChatMessage) : ChatMessage where
  role := escapeSpecials specials message.role
  content := escapeSpecials specials message.content
  name := message.name.map (escapeSpecials specials)
  toolCalls := message.toolCalls.map (ToolCalls.escape specials)
  toolCallId := message.toolCallId.map (escapeSpecials specials)
  reasoningContent := message.reasoningContent.map (escapeSpecials specials)

def sanitizeMessages (messages : List ChatMessage) (specials : List Text) : List ChatMessage :=
  if specials.isEmpty || !messagesNeedEscaping messages specials then
    messages
  else
    messages.map (ChatMessage.escape specials)

/-! ## Tool-call arguments -/

/-- A value used as it is or a changed copy of it. -/
inductive Cow (α : Type)
  | borrowed (value : α)
  | owned (value : α)

def Cow.value {α : Type} : Cow α → α
  | .borrowed value => value
  | .owned value => value

def Cow.isOwned {α : Type} : Cow α → Bool
  | .borrowed _ => false
  | .owned _ => true

def Json.isObject : Json → Bool
  | .object _ => true
  | _ => false

section ToolCallArguments
variable (parse : Text → Option Json)

/-- `arguments_object`: the object the arguments should be, when they are not
one already. -/
def argumentsObject : Option Json → Option Json
  | none => some (.object [])
  | some .null => some (.object [])
  | some (.string text) =>
    if trim text = [] then some (.object [])
    else (parse text).filter Json.isObject
  | some _ => none

/-- The arguments of one call as an object, where they can be one. -/
def objectArguments (item : Json) : Json :=
  match item with
  | .object fields =>
    match get "function".toList fields with
    | some (.object function) =>
      match argumentsObject parse (get "arguments".toList function) with
      | some object =>
        .object (insert "function".toList (.object (insert "arguments".toList object function))
          fields)
      | none => item
    | _ => item
  | _ => item

/-- Whether the arguments of one call become an object. -/
def argumentsChange (item : Json) : Bool :=
  match item.get "function".toList with
  | some (.object function) =>
    (argumentsObject parse (get "arguments".toList function)).isSome
  | _ => false

/-- The tool calls a template sees: with `objects`, arguments given as text
are turned into objects; an empty list is dropped. -/
def templateToolCalls (calls : Json) (objects : Bool) : Option (Cow Json) :=
  match calls with
  | .array items =>
    if items.isEmpty then none
    else if objects && items.any (argumentsChange parse) then
      some (.owned (.array (items.map (objectArguments parse))))
    else
      some (.borrowed calls)
  | _ => some (.borrowed calls)

/-- A message as the template sees it. -/
structure Msg where
  role : Text
  content : Text
  name : Option Text
  toolCalls : Option (Cow Json)
  toolCallId : Option Text
  reasoningContent : Option Text

/-- The closure `msgs` of `render_inner`. -/
def msgs (messages : List ChatMessage) (objects : Bool) : List Msg :=
  messages.map fun message =>
    { role := message.role
      content := message.content
      name := message.name
      toolCalls := message.toolCalls.bind fun calls => templateToolCalls parse calls.1 objects
      toolCallId := message.toolCallId
      reasoningContent := message.reasoningContent }

end ToolCallArguments

/-! ## Rendering -/

/-- An error of the template engine. -/
structure RenderError where
  outOfFuel : Bool
  text : Text

/-- A chat template with everything but the messages in its context: `compile`
is `Environment::add_template`, and what it gives renders a list of
messages. -/
structure ChatTemplate where
  specialTokens : List Text
  compile : Except Text (List Msg → Except RenderError Text)

/-- A rendering, with the lists of messages the template was given on the
way. -/
structure Rendering where
  handed : List (List Msg)
  result : Except Text Text

def renderFailed (error : RenderError) : Text :=
  "chat template failed to render: ".toList ++ error.text

def ChatTemplate.renderInner (parse : Text → Option Json)
    (template : ChatTemplate) (messages : List ChatMessage) : Rendering :=
  let sanitized := sanitizeMessages messages template.specialTokens
  let withObjects := msgs parse sanitized true
  let converted := withObjects.any fun msg => msg.toolCalls.any Cow.isOwned
  match template.compile with
  | .error text => ⟨[], .error ("chat template failed to parse: ".toList ++ text)⟩
  | .ok render =>
    match render withObjects with
    | .ok rendered => ⟨[withObjects], .ok rendered⟩
    | .error error =>
      if converted && !error.outOfFuel then
        -- the first error is the one reported
        let plain := msgs parse sanitized false
        ⟨[withObjects, plain], (render plain).mapError fun _ => renderFailed error⟩
      else
        ⟨[withObjects], .error (renderFailed error)⟩

end Joshua
