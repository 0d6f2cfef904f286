/-
Module: Joshua.Proofs.AnthropicBlocks
Purpose: The events of an Anthropic stream are a list of content blocks, each
  written between its own start and stop and numbered from zero; reasoning
  comes before everything else, the prose in order, and every tool call has
  one block.
Trusted boundary: none
-/
import Joshua.Model.AnthropicStream

namespace Joshua.Anthropic
open Emitter (startsJson)

section

/-- A content block with its deltas. -/
abbrev Written := ContentBlock × List Delta

/-- A block as it is sent. -/
def render (index : Nat) (block : Written) : List Event :=
  .contentBlockStart index block.1 ::
    (block.2.map (.contentBlockDelta index) ++ [.contentBlockStop index])

/-- Blocks one after the other, numbered from zero. -/
def renderAll (blocks : List Written) : List Event :=
  blocks.zipIdx.flatMap fun block => render block.2 block.1

lemma renderAll_concat (blocks : List Written) (block : Written) : renderAll (blocks ++ [block]) =
      renderAll blocks ++ render blocks.length block := by
  simp [renderAll, List.zipIdx_append]

/-- How the arguments of a call are sent: piece by piece if the first one
starts a JSON object or array, as one JSON text otherwise. -/
def argDeltas (serde : Serde) : List Text → List Delta
  | [] => []
  | first :: rest =>
    if startsJson first then
      (first :: rest).map .inputJsonDelta
    else
      [.inputJsonDelta (toolArgumentsJson serde (first :: rest).flatten)]

/-! ## A machine that draws blocks -/

/-- An open block, with the pieces that came for it. -/
inductive Drawn
  | thinking (texts : List Text)
  | text (texts : List Text)
  | tool (call : Nat) (id name : Text) (args : List Text)

namespace Drawn

def content : Drawn → ContentBlock
  | .thinking _ => .thinking
  | .text _ => .text
  | .tool _ id name _ => .toolUse id name

/-- The emitter's kind of the block. -/
def kind : Drawn → Block
  | .thinking _ => .thinking
  | .text _ => .text
  | .tool call _ _ [] => .tool call false none
  | .tool call _ _ (first :: rest) =>
    if startsJson first then .tool call true none
    else .tool call false (some (first :: rest).flatten)

/-- The deltas sent while the block is open. -/
def sent : Drawn → List Delta
  | .thinking texts => texts.map .thinkingDelta
  | .text texts => texts.map .textDelta
  | .tool _ _ _ [] => []
  | .tool _ _ _ (first :: rest) =>
    if startsJson first then (first :: rest).map .inputJsonDelta else []

/-- The block once it is closed. -/
def closed (serde : Serde) : Drawn → Written
  | .thinking texts => (.thinking, texts.map .thinkingDelta ++ [.signatureDelta []])
  | .text texts => (.text, texts.map .textDelta)
  | .tool _ id name args => (.toolUse id name, argDeltas serde args)

end Drawn

structure Drawing where
  done : List Written
  current : Option Drawn
  answered : Bool

namespace Drawing

variable (serde : Serde)

def init : Drawing :=
  { done := [], current := none, answered := false }

/-- All blocks, if the open one is closed now. -/
def blocks (drawing : Drawing) : List Written :=
  drawing.done ++ (drawing.current.map (Drawn.closed serde)).toList

/-- Close the open block and open another one. -/
def reopen (drawn : Drawn) (answered : Bool) (drawing : Drawing) : Drawing :=
  { done := drawing.blocks serde
    current := some drawn
    answered := answered }

def step (drawing : Drawing) : ChatPiece → Drawing
  | .reasoning text =>
    if text.isEmpty || drawing.answered then drawing
    else
      match drawing.current with
      | some (.thinking texts) => { drawing with current := some (.thinking (texts ++ [text])) }
      | _ => drawing.reopen serde (.thinking [text]) drawing.answered
  | .text text =>
    if text.isEmpty then drawing
    else
      match drawing.current with
      | some (.text texts) => { drawing with current := some (.text (texts ++ [text])) }
      | _ => drawing.reopen serde (.text [text]) true
  | .callStart index id name => drawing.reopen serde (.tool index id name []) true
  | .callArgs index delta =>
    match drawing.current with
    | some (.tool call id name args) =>
      if call = index then
        { drawing with
          current := some (.tool call id name (args ++ [delta])) }
      else drawing
    | _ => drawing

end Drawing

/-- The emitter has sent what the drawing shows. -/
structure Draws (start : Event) (emitter : Emitter) (drawing : Drawing) : Prop where
  sent : emitter.sent = start :: renderAll drawing.done ++
    match drawing.current with
    | none => []
    | some drawn =>
      .contentBlockStart drawing.done.length drawn.content ::
        drawn.sent.map (.contentBlockDelta drawing.done.length)
  opened : emitter.opened = drawing.current.map fun drawn => (drawing.done.length, drawn.kind)
  answered : emitter.answered = drawing.answered
  nextIndex : emitter.nextIndex = drawing.done.length + drawing.current.toList.length

variable {serde : Serde} {start : Event} {emitter : Emitter} {drawing : Drawing}

/-- The deltas a block sends when it closes. -/
def Drawn.last (serde : Serde) : Drawn → List Delta
  | .thinking _ => [.signatureDelta []]
  | .text _ => []
  | .tool _ _ _ [] => []
  | .tool _ _ _ (first :: rest) =>
    if startsJson first then []
    else [.inputJsonDelta (toolArgumentsJson serde (first :: rest).flatten)]

lemma Drawn.closed_eq (drawn : Drawn) :
    drawn.closed serde = (drawn.content, drawn.sent ++ drawn.last serde) := by
  cases drawn with
  | thinking texts => rfl
  | text texts => simp [closed, content, sent, last]
  | tool call id name args =>
    cases args with
    | nil => rfl
    | cons first rest =>
      by_cases json : startsJson first <;> simp [closed, content, sent, last, argDeltas, json]

lemma closeBlock_none (opened : emitter.opened = none) : emitter.closeBlock serde = emitter := by
  simp [Emitter.closeBlock, opened]

variable {drawn : Drawn}

lemma closeBlock_some {i : Nat} (opened : emitter.opened = some (i, drawn.kind)) :
    emitter.closeBlock serde = { emitter with
        opened := none
        sent := emitter.sent ++ ((drawn.last serde).map (.contentBlockDelta i) ++
            [.contentBlockStop i]) } := by
  rw [Emitter.closeBlock, opened]
  cases drawn with
  | thinking texts => simp [Drawn.kind, Drawn.last, Emitter.delta, Emitter.send]
  | text texts => simp [Drawn.kind, Drawn.last, Emitter.send]
  | tool call id name args =>
    cases args with
    | nil => simp [Drawn.kind, Drawn.last, Emitter.send]
    | cons first rest =>
      by_cases json : startsJson first <;>
        simp [Drawn.kind, Drawn.last, Emitter.delta, Emitter.send, json]

section
variable (serde : Serde) (draws : Draws start emitter drawing)
include draws

/-- Closing the open block sends what is left of it. -/
lemma Draws.closeBlock : Draws start (emitter.closeBlock serde)
      { drawing with done := drawing.blocks serde, current := none } := by
  obtain ⟨done, current, answered⟩ := drawing
  obtain ⟨sent, opened, isAnswered, next⟩ := draws
  cases current with
  | none =>
    rw [closeBlock_none opened]
    constructor
    · simpa [Drawing.blocks] using sent
    · exact opened
    · exact isAnswered
    · simpa [Drawing.blocks] using next
  | some drawn =>
    rw [closeBlock_some opened]
    constructor
    · simp [Drawing.blocks, sent, renderAll_concat, render, Drawn.closed_eq]
    · rfl
    · exact isAnswered
    · simpa [Drawing.blocks] using next

/-- Opening a block that has sent nothing yet. -/
lemma Draws.openBlock (drawn : Drawn) (silent : drawn.sent = []) :
    Draws start (emitter.openBlock serde drawn.kind drawn.content).1
        (drawing.reopen serde drawn drawing.answered) ∧
      (emitter.openBlock serde drawn.kind drawn.content).2 = (drawing.blocks serde).length := by
  obtain ⟨sent, opened, isAnswered, next⟩ := draws.closeBlock serde
  have index : (emitter.closeBlock serde).nextIndex = (drawing.blocks serde).length := next
  refine ⟨⟨?_, ?_, isAnswered, ?_⟩, index⟩
  · simp [Emitter.openBlock, Emitter.send, sent, index, Drawing.reopen, silent]
  · simp [Emitter.openBlock, index, Drawing.reopen]
  · simp [Emitter.openBlock, Emitter.send, index, Drawing.reopen]

end

section
variable (draws : Draws start emitter drawing)
include draws

lemma Draws.answer : Draws start { emitter with answered := true }
      { drawing with answered := true } :=
  ⟨draws.sent, draws.opened, rfl, draws.nextIndex⟩

/-- The open block takes a piece and sends some deltas for it. -/
lemma Draws.grow (grown : Drawn) (current : drawing.current = some drawn)
    (content : grown.content = drawn.content) (more : List Delta)
    (sent : grown.sent = drawn.sent ++ more) :
    Draws start
      { emitter with
        opened := some (drawing.done.length, grown.kind)
        sent := emitter.sent ++ more.map (.contentBlockDelta drawing.done.length) }
      { drawing with current := some grown } := by
  constructor
  · simp [draws.sent, current, content, sent]
  · rfl
  · exact draws.answered
  · simpa [current] using draws.nextIndex

lemma Draws.opened_eq (current : drawing.current = some drawn) :
    emitter.opened = some (drawing.done.length, drawn.kind) := by
  rw [draws.opened, current]
  rfl

/-- The open block sends a delta for a piece and stays of its kind. -/
lemma Draws.delta {drawn : Drawn} (grown : Drawn) (current : drawing.current = some drawn)
    (content : grown.content = drawn.content) (kind : grown.kind = drawn.kind) {delta : Delta}
    (sent : grown.sent = drawn.sent ++ [delta]) :
    Draws start (emitter.delta drawing.done.length delta)
      { drawing with current := some grown } := by
  have grows := draws.grow grown current content [delta] sent
  rw [kind, ← draws.opened_eq current] at grows
  exact grows

end

/-- A block is opened and its first delta sent. -/
lemma Draws.openWith (serde : Serde) (draws : Draws start emitter drawing) (drawn grown : Drawn)
    (silent : drawn.sent = []) (content : grown.content = drawn.content)
    (kind : grown.kind = drawn.kind) {delta : Delta} (sent : grown.sent = [delta]) :
    Draws start
      ((emitter.openBlock serde drawn.kind drawn.content).1.delta
        (emitter.openBlock serde drawn.kind drawn.content).2 delta)
      (drawing.reopen serde grown drawing.answered) := by
  obtain ⟨opens, i⟩ := draws.openBlock serde drawn silent
  rw [i]
  apply opens.delta grown rfl content kind
  rw [silent]
  exact sent

/-! ## One piece -/

lemma Drawn.kind_tool (call : Nat) (id name : Text) (args : List Text) : ∃ streaming held,
      (Drawn.tool call id name args).kind = .tool call streaming held := by
  cases args with
  | nil => exact ⟨_, _, rfl⟩
  | cons first rest =>
    by_cases json : startsJson first
    · exact ⟨true, none, by simp [kind, json]⟩
    · exact ⟨false, some (first :: rest).flatten, by simp [kind, json]⟩

section
variable (draws : Draws start emitter drawing)
include draws

lemma Draws.thinking (text : Text) :
    Draws start (emitter.thinking serde text) (drawing.step serde (.reasoning text)) := by
  rw [Emitter.thinking, Drawing.step, draws.answered]
  by_cases skip : (text.isEmpty || drawing.answered) = true
  · simpa only [skip, if_true] using draws
  · simp only [skip]
    have opens := draws.openWith serde (.thinking []) (.thinking [text])
      rfl rfl rfl rfl
    cases current : drawing.current with
    | none =>
      rw [draws.opened, current]
      exact opens
    | some drawn =>
      rw [draws.opened_eq current]
      cases drawn with
      | thinking texts =>
        exact draws.delta (.thinking (texts ++ [text])) current rfl rfl (by simp [Drawn.sent])
      | text texts => exact opens
      | tool call id name args =>
        obtain ⟨streaming, held, kind⟩ := Drawn.kind_tool call id name args
        rw [kind]
        exact opens

lemma Draws.text (text : Text) :
    Draws start (emitter.text serde text) (drawing.step serde (.text text)) := by
  rw [Emitter.text, Drawing.step]
  by_cases skip : text.isEmpty = true
  · simpa only [skip, if_true] using draws
  · simp only [skip]
    have opens := draws.answer.openWith serde (.text []) (.text [text])
      rfl rfl rfl rfl
    cases current : drawing.current with
    | none =>
      have opened : emitter.opened = none := by
        rw [draws.opened, current]
        rfl
      rw [opened] at opens ⊢
      exact opens
    | some drawn =>
      have opened := draws.opened_eq current
      cases drawn with
      | thinking texts =>
        rw [opened] at opens ⊢
        exact opens
      | text texts =>
        rw [opened]
        exact draws.delta (.text (texts ++ [text])) current rfl rfl (by simp [Drawn.sent])
      | tool call id name args =>
        obtain ⟨streaming, held, kind⟩ := Drawn.kind_tool call id name args
        rw [kind] at opened
        rw [opened] at opens ⊢
        exact opens

lemma Draws.toolStart (i : Nat) (id name : Text) :
    Draws start (emitter.toolStart serde i id name) (drawing.step serde (.callStart i id name)) :=
  (draws.answer.openBlock serde (.tool i id name []) rfl).1

omit draws in
/-- The arguments of the open call: the first piece decides how they are
sent. -/
lemma toolArgs_open {call block : Nat} {id name : Text} {args : List Text}
    (opened : emitter.opened = some (block, (Drawn.tool call id name args).kind)) (delta : Text) :
    ∃ more, emitter.toolArgs call delta = { emitter with
          opened := some (block, (Drawn.tool call id name (args ++ [delta])).kind)
          sent := emitter.sent ++ more.map (.contentBlockDelta block) } ∧
      (Drawn.tool call id name (args ++ [delta])).sent =
        (Drawn.tool call id name args).sent ++ more := by
  rw [Emitter.toolArgs, opened]
  cases args with
  | nil =>
    by_cases json : startsJson delta
    · exact ⟨[.inputJsonDelta delta], by
        simp [Drawn.kind, Drawn.sent, json, Emitter.delta, Emitter.send]⟩
    · exact ⟨[], by simp [Drawn.kind, Drawn.sent, json]⟩
  | cons first rest =>
    by_cases json : startsJson first
    · exact ⟨[.inputJsonDelta delta], by
        simp [Drawn.kind, Drawn.sent, json, Emitter.delta, Emitter.send]⟩
    · exact ⟨[], by simp [Drawn.kind, Drawn.sent, json]⟩

lemma Draws.toolArgs (i : Nat) (delta : Text) :
    Draws start (emitter.toolArgs i delta) (drawing.step serde (.callArgs i delta)) := by
  rw [Drawing.step]
  cases current : drawing.current with
  | none =>
    have opened := draws.opened
    rw [current] at opened
    simpa [Emitter.toolArgs, opened] using draws
  | some drawn =>
    have opened := draws.opened_eq current
    cases drawn with
    | thinking texts | text texts => simpa [Emitter.toolArgs, opened, Drawn.kind] using draws
    | tool call id name args =>
      by_cases mine : call = i
      · subst mine
        obtain ⟨more, sends, sent⟩ := toolArgs_open opened delta
        simp only [if_true]
        rw [sends]
        exact draws.grow (.tool call id name (args ++ [delta])) current rfl more sent
      · obtain ⟨streaming, held, kind⟩ := Drawn.kind_tool call id name args
        rw [kind] at opened
        simpa [Emitter.toolArgs, opened, mine] using draws

lemma draws_piece (piece : ChatPiece) :
    Draws start (emitter.piece serde piece) (drawing.step serde piece) := by
  cases piece with
  | reasoning text => exact draws.thinking text
  | text text => exact draws.text text
  | callStart i id name => exact draws.toolStart i id name
  | callArgs i delta => exact draws.toolArgs i delta

end

/-! ## The whole stream -/

lemma draws_pieces (serde : Serde) (draws : Draws start emitter drawing) (pieces : List ChatPiece) :
    Draws start (pieces.foldl (Emitter.piece serde) emitter)
      (pieces.foldl (Drawing.step serde) drawing) := by
  induction pieces generalizing emitter drawing with
  | nil => exact draws
  | cons piece pieces ih => exact ih (draws_piece draws piece)

lemma messageStart_draws (id model : Text) (inputTokens : Nat) :
    Draws (.messageStart id model inputTokens)
      ((Emitter.new id model).messageStart inputTokens) .init where
  sent := rfl
  opened := rfl
  answered := rfl
  nextIndex := rfl

/-- The stream is the message start, the blocks that were drawn, and the two
closing events. -/
lemma stream_eq_render (serde : Serde) (id model : Text) (inputTokens : Nat)
    (pieces : List ChatPiece) (hasCalls : Bool) (completion : Completion) :
    Emitter.stream serde id model inputTokens pieces hasCalls completion =
      .messageStart id model inputTokens ::
        renderAll ((pieces.foldl (Drawing.step serde) .init).blocks serde) ++
        [.messageDelta (stopReason completion.stopType hasCalls)
            completion.stopSequence (MessagesUsage.fromCompletion completion),
          .messageStop] := by
  have drawn := (draws_pieces serde
    (messageStart_draws id model inputTokens) pieces).closeBlock serde
  rw [Emitter.stream, Emitter.finish]
  simp [Emitter.send, drawn.sent]

/-! ## The arguments of one call -/

/-- The `partial_json` texts of a block, one after the other. -/
def partialJson (block : Nat) (events : List Event) : Text :=
  events.flatMap fun event =>
    match event with
    | .contentBlockDelta index (.inputJsonDelta part) => if index = block then part else []
    | _ => []

/-- The open call takes its pieces one after the other. -/
lemma toolArgs_pieces {call block : Nat} {id name : Text} (more : List Text) {args : List Text}
    (opened : emitter.opened = some (block, (Drawn.tool call id name args).kind)) :
    ∃ deltas, more.foldl (fun current delta => current.toolArgs call delta) emitter = { emitter with
          opened := some (block, (Drawn.tool call id name (args ++ more)).kind)
          sent := emitter.sent ++ deltas.map (.contentBlockDelta block) } ∧
      (Drawn.tool call id name (args ++ more)).sent =
        (Drawn.tool call id name args).sent ++ deltas := by
  induction more generalizing emitter args with
  | nil => exact ⟨[], by simp [← opened]⟩
  | cons delta more ih =>
    obtain ⟨first, sends, sent⟩ := toolArgs_open opened delta
    obtain ⟨deltas, runs, all⟩ := ih (congrArg Emitter.opened sends)
    refine ⟨first ++ deltas, ?_, ?_⟩
    · rw [List.foldl_cons, runs, sends]
      simp
    · rw [List.append_assoc] at all
      rw [← List.append_assoc, ← sent]
      exact all

/-- What the block of a call sends from its start on. -/
lemma toolArgs_close (serde : Serde) {call block : Nat}
    (opened : emitter.opened = some (block, .tool call false none)) (args : List Text) :
    ((args.foldl (fun current delta => current.toolArgs call delta)
      emitter).closeBlock serde).sent =
      emitter.sent ++ ((argDeltas serde args).map (.contentBlockDelta block) ++
        [.contentBlockStop block]) := by
  have fresh : emitter.opened = some (block, (Drawn.tool call [] [] []).kind) := opened
  obtain ⟨deltas, runs, sent⟩ := toolArgs_pieces args fresh
  have written : argDeltas serde args = (Drawn.tool call [] [] args).sent ++ Drawn.last serde _ :=
    congrArg Prod.snd (Drawn.tool call [] [] args).closed_eq
  have all : (Drawn.tool call [] [] args).sent = deltas := sent
  rw [runs, closeBlock_some rfl, written, all, List.nil_append, List.map_append]
  simp only [List.append_assoc]

lemma partialJson_deltas (block : Nat) (parts : List Text) :
    partialJson block ((parts.map Delta.inputJsonDelta).map (.contentBlockDelta block) ++
      [.contentBlockStop block]) = parts.flatten := by
  simp [partialJson, List.flatMap_map]

/-- A call whose arguments come as `args` while its block is open: what the
block sends as `partial_json` reads as the input of the response that is not
streamed exactly when the arguments are JSON, or there are some and the first
piece does not start an object or an array. -/
theorem streamed_input_iff (serde : Serde) (emitter : Emitter) (call : Nat) (id name : Text)
    (args : List Text)
    (faithful : serde.fromStr (toolArgumentsJson serde args.flatten) =
      some (toolInput serde args.flatten)) :
    ∃ block events,
      (emitter.toolStart serde call id name).opened = some (block, .tool call false none) ∧
      ((args.foldl (fun current delta => current.toolArgs call delta)
          (emitter.toolStart serde call id name)).closeBlock serde).sent =
        (emitter.toolStart serde call id name).sent ++ events ∧
      (serde.fromStr (partialJson block events) = some (toolInput serde args.flatten) ↔
        (serde.fromStr args.flatten).isSome ∨
          ∃ first rest, args = first :: rest ∧ startsJson first = false) := by
  refine ⟨_, _, rfl, toolArgs_close serde rfl args, ?_⟩
  have raw : serde.fromStr args.flatten = some (toolInput serde args.flatten) ↔
      (serde.fromStr args.flatten).isSome := by
    cases read : serde.fromStr args.flatten <;> simp [toolInput, read]
  cases args with
  | nil =>
    rw [show argDeltas serde [] = List.map .inputJsonDelta [] from rfl, partialJson_deltas, raw]
    simp
  | cons first rest =>
    rw [argDeltas]
    split
    next json =>
      rw [partialJson_deltas, raw]
      simp [json]
    next held =>
      rw [show [_] = List.map Delta.inputJsonDelta [_] from rfl, partialJson_deltas]
      refine iff_of_true ?_ (.inr ⟨first, rest, rfl, Bool.eq_false_iff.mpr held⟩)
      simpa using faithful

/-- A JSON library that knows one string. -/
def oneString : Serde where
  fromStr text := if text = "\"hi\"".toList then some (.string "hi".toList) else none
  toText _ := "\"hi\"".toList

/-- Arguments that start like an object and are not JSON go out as they are. -/
theorem unfinished_object_sent_raw : oneString.fromStr (partialJson 0
      ((((Emitter.new [] []).toolStart oneString 0 [] []).toolArgs 0 "\x7bhi".toList).closeBlock
        oneString).sent) ≠ some (toolInput oneString "\x7bhi".toList) :=
  (Option.some_ne_none _).symm

theorem streamed_input_iff_of_word : ∃ block events,
    ((["h".toList, "i".toList].foldl (fun current delta => current.toolArgs 0 delta)
        ((Emitter.new [] []).toolStart oneString 0 [] [])).closeBlock oneString).sent =
      ((Emitter.new [] []).toolStart oneString 0 [] []).sent ++ events ∧
    oneString.fromStr (partialJson block events) = some (.string "hi".toList) := by
  obtain ⟨block, events, _, sent, agrees⟩ := streamed_input_iff oneString (Emitter.new [] []) 0
    [] [] ["h".toList, "i".toList] rfl
  exact ⟨block, events, sent, agrees.mpr (.inr ⟨_, _, rfl, rfl⟩)⟩

end

open List
open Drawing (blocks init reopen step)

/-! ## What the pieces ask for -/

/-- The prose of a piece. -/
def ChatPiece.prose : ChatPiece → Text
  | .text written => written
  | _ => []

/-- The piece opens another block than the one a tool call has open. -/
def ChatPiece.opensBlock : ChatPiece → Bool
  | .text written => !written.isEmpty
  | .callStart _ _ _ => true
  | _ => false

/-- The arguments of a call that come before another block opens. -/
def openArgs (call : Nat) : List ChatPiece → List Text
  | [] => []
  | piece :: rest =>
    if piece.opensBlock then []
    else
      match piece with
      | .callArgs index delta =>
        if call = index then delta :: openArgs call rest
        else openArgs call rest
      | _ => openArgs call rest

/-- One block for every call, in order. -/
def callBlocks (serde : Serde) : List ChatPiece → List Written
  | [] => []
  | .callStart index id name :: rest =>
    (.toolUse id name, argDeltas serde (openArgs index rest)) :: callBlocks serde rest
  | _ :: rest => callBlocks serde rest

/-! ## What the blocks hold -/

def Delta.prose : Delta → Text
  | .textDelta text => text
  | _ => []

def Written.prose (block : Written) : Text :=
  block.2.flatMap Delta.prose

def Written.isTool (block : Written) : Bool :=
  match block.1 with
  | .toolUse _ _ => true
  | _ => false

variable {serde : Serde} {drawing : Drawing}

lemma argDeltas_prose (args : List Text) : (argDeltas serde args).flatMap Delta.prose = [] := by
  cases args with
  | nil => rfl
  | cons first rest =>
    by_cases json : Emitter.startsJson first <;> simp [argDeltas, json, Delta.prose, flatMap_map]

/-! ### Prose -/

/-- The prose a drawing shows. -/
def Drawing.prose (serde : Serde) (drawing : Drawing) : Text :=
  (drawing.blocks serde).flatMap Written.prose

def Drawn.prose (serde : Serde) (drawn : Drawn) : Text :=
  (drawn.closed serde).prose

@[simp] lemma Drawn.prose_thinking (texts : List Text) :
    (Drawn.thinking texts).prose serde = [] := by
  simp [prose, closed, Written.prose, flatMap_map, Delta.prose]

@[simp] lemma Drawn.prose_text (texts : List Text) :
    (Drawn.text texts).prose serde = texts.flatten := by
  simp [prose, closed, Written.prose, flatMap_map, Delta.prose, flatMap_id']

@[simp] lemma Drawn.prose_tool (call : Nat) (id name : Text)
    (args : List Text) : (Drawn.tool call id name args).prose serde = [] :=
  argDeltas_prose args

lemma Drawing.prose_reopen (drawn : Drawn) (answered : Bool) :
    (drawing.reopen serde drawn answered).prose serde =
      drawing.prose serde ++ drawn.prose serde := by
  simp [prose, blocks, reopen, Drawn.prose]

lemma Drawing.prose_current {drawn : Drawn} (current : drawing.current = some drawn) :
    drawing.prose serde = drawing.done.flatMap Written.prose ++ drawn.prose serde := by
  simp [prose, blocks, current, Drawn.prose]

@[simp] lemma Drawing.prose_mk (done : List Written) (drawn : Drawn) (answered : Bool) :
    Drawing.prose serde ⟨done, some drawn, answered⟩ =
      done.flatMap Written.prose ++ drawn.prose serde :=
  prose_current rfl

lemma step_prose (piece : ChatPiece) : (drawing.step serde piece).prose serde =
      drawing.prose serde ++ piece.prose := by
  cases piece with
  | reasoning text =>
    simp only [ChatPiece.prose, append_nil, step]
    split
    · rfl
    · split
      · rename_i texts cur
        simp [Drawing.prose_current cur]
      · simp [Drawing.prose_reopen]
  | text written =>
    simp only [ChatPiece.prose, step]
    split
    · rename_i empty
      simp [List.isEmpty_iff.mp empty]
    · split
      · rename_i texts cur
        simp [Drawing.prose_current cur]
      · simp [Drawing.prose_reopen]
  | callStart i id name => simp [ChatPiece.prose, step, Drawing.prose_reopen]
  | callArgs i delta =>
    simp only [ChatPiece.prose, append_nil, step]
    split
    · rename_i call id name args cur
      split
      · simp [Drawing.prose_current cur]
      · rfl
    · rfl

lemma blocks_text (pieces : List ChatPiece) :
    (pieces.foldl (step serde) drawing).prose serde =
      drawing.prose serde ++ pieces.flatMap ChatPiece.prose := by
  induction pieces generalizing drawing with
  | nil => simp
  | cons piece pieces ih =>
    rw [foldl_cons, ih, step_prose]
    simp

/-! ### Reasoning first -/

/-- Every `thinking` block comes before all others. -/
def ThinkingFirst (blocks : List Written) : Prop :=
  ∃ thinking others, blocks = thinking ++ others ∧ (∀ block ∈ thinking, block.1 = .thinking) ∧
    ∀ block ∈ others, block.1 ≠ .thinking

/-- Before the answer there is nothing but reasoning, and after it has begun
no reasoning is drawn. -/
structure Drawing.Sorted (drawing : Drawing) : Prop where
  reasoning : drawing.answered = false → ∀ block ∈ drawing.done, block.1 = .thinking
  first : ThinkingFirst drawing.done
  current : ∀ drawn ∈ drawing.current, drawn.content = .thinking ↔ drawing.answered = false

lemma ThinkingFirst.append {blocks more : List Written} (first : ThinkingFirst blocks)
    (others : ∀ block ∈ more, block.1 ≠ .thinking) : ThinkingFirst (blocks ++ more) := by
  obtain ⟨thinking, rest, rfl, isThinking, isOther⟩ := first
  exact ⟨thinking, rest ++ more, by simp, isThinking, forall_mem_append.mpr ⟨isOther, others⟩⟩

lemma ThinkingFirst.of_all {blocks : List Written}
    (all : ∀ block ∈ blocks, block.1 = .thinking) : ThinkingFirst blocks :=
  ⟨blocks, [], by simp, all, nofun⟩

lemma Drawing.mem_blocks {block : Written} : block ∈ drawing.blocks serde ↔ block ∈ drawing.done ∨
      ∃ drawn ∈ drawing.current, drawn.closed serde = block := by
  simp [blocks]

lemma Drawn.closed_fst (drawn : Drawn) : (drawn.closed serde).1 = drawn.content := by
  rw [closed_eq]

lemma Drawing.Sorted.blocks (sorted : drawing.Sorted) : (drawing.answered = false →
      ∀ block ∈ drawing.blocks serde, block.1 = .thinking) ∧
      ThinkingFirst (drawing.blocks serde) := by
  cases isAnswered : drawing.answered with
  | false =>
    have all : ∀ block ∈ drawing.blocks serde, block.1 = .thinking := by
      intro block mem
      rcases Drawing.mem_blocks.mp mem with old | ⟨drawn, isOpen, rfl⟩
      · exact sorted.reasoning isAnswered block old
      · rw [Drawn.closed_fst]
        exact (sorted.current drawn isOpen).mpr isAnswered
    exact ⟨fun _ => all, .of_all all⟩
  | true =>
    refine ⟨fun early => absurd early (by decide), ?_⟩
    apply sorted.first.append
    intro block mem
    simp only [Option.mem_toList, Option.map_eq_some_iff] at mem
    obtain ⟨drawn, isOpen, rfl⟩ := mem
    rw [Drawn.closed_fst, ne_eq, sorted.current drawn isOpen, isAnswered]
    decide

lemma init_sorted : init.Sorted where
  reasoning _ := by simp [init]
  first := .of_all (by simp [init])
  current := by simp [init]

lemma Drawing.Sorted.reopen (sorted : drawing.Sorted) {drawn : Drawn} {answered : Bool}
    (early : answered = false → drawing.answered = false)
    (content : drawn.content = .thinking ↔ answered = false) :
    (drawing.reopen serde drawn answered).Sorted where
  reasoning silent := sorted.blocks.1 (early silent)
  first := sorted.blocks.2
  current := by
    rintro _ ⟨⟩
    exact content

/-- The open block takes a piece of its kind. -/
lemma Drawing.Sorted.grow (sorted : drawing.Sorted) {drawn grown : Drawn}
    (current : drawing.current = some drawn) (content : grown.content = drawn.content) :
    Drawing.Sorted { drawing with current := some grown } where
  reasoning := sorted.reasoning
  first := sorted.first
  current := by
    rintro _ ⟨⟩
    rw [content]
    exact sorted.current drawn current

lemma step_sorted (sorted : drawing.Sorted) (piece : ChatPiece) :
    (drawing.step serde piece).Sorted := by
  cases piece with
  | reasoning text =>
    rw [step]
    split
    · exact sorted
    · rename_i skip
      simp only [Bool.or_eq_true, not_or, Bool.not_eq_true] at skip
      split
      · rename_i texts cur
        exact sorted.grow cur rfl
      · exact sorted.reopen id (iff_of_true rfl skip.2)
  | text written =>
    rw [step]
    split
    · exact sorted
    · split
      · rename_i texts cur
        exact sorted.grow cur rfl
      · exact sorted.reopen nofun (by simp [Drawn.content])
  | callStart i id name => exact sorted.reopen nofun (by simp [Drawn.content])
  | callArgs i delta =>
    rw [step]
    split
    · rename_i call id name args cur
      split
      · exact sorted.grow cur rfl
      · exact sorted
    · exact sorted

lemma pieces_sorted (serde : Serde) (sorted : drawing.Sorted) (pieces : List ChatPiece) :
    (pieces.foldl (step serde) drawing).Sorted := by
  induction pieces generalizing drawing with
  | nil => exact sorted
  | cons piece pieces ih => exact ih (step_sorted sorted piece)

/-! ### Calls -/

/-- The block of the open call, if the pieces still to come are as given. -/
def Drawing.openCall (serde : Serde) (drawing : Drawing) (pieces : List ChatPiece) : List Written :=
  match drawing.current with
  | some (.tool call id name args) =>
    [(.toolUse id name, argDeltas serde (args ++ openArgs call pieces))]
  | _ => []

lemma blocks_filter_isTool (drawing : Drawing) : (drawing.blocks serde).filter Written.isTool =
      drawing.done.filter Written.isTool ++ drawing.openCall serde [] := by
  rw [blocks, filter_append, Drawing.openCall]
  cases current : drawing.current with
  | none => rfl
  | some drawn =>
    cases drawn with
    | thinking texts | text texts => rfl
    | tool call id name args => simp [Drawn.closed, Written.isTool, openArgs]

/-- A piece that opens a block ends the open call. -/
lemma openCall_of_opensBlock {piece : ChatPiece}
    (ends : piece.opensBlock = true) (pieces : List ChatPiece) :
    drawing.openCall serde (piece :: pieces) = drawing.openCall serde [] := by
  simp only [Drawing.openCall, openArgs, ends, if_true]

lemma openCall_reasoning (text : Text) (pieces : List ChatPiece) :
    drawing.openCall serde (.reasoning text :: pieces) = drawing.openCall serde pieces := by
  simp [Drawing.openCall, openArgs, ChatPiece.opensBlock]

lemma openCall_of_thinking (serde : Serde)
    (thinking : ∀ drawn ∈ drawing.current, drawn.content = .thinking)
    (pieces : List ChatPiece) : drawing.openCall serde pieces = [] := by
  rw [Drawing.openCall]
  split
  · rename_i call id name args current
    cases thinking _ current
  · rfl

lemma reopen_tools (drawn : Drawn) (answered : Bool) :
    (drawing.reopen serde drawn answered).done.filter Written.isTool =
      drawing.done.filter Written.isTool ++ drawing.openCall serde [] :=
  blocks_filter_isTool drawing

/-- What is drawn of the calls, and what the rest of the pieces adds to it,
is the same before and after a piece. -/
lemma step_tools (sorted : drawing.Sorted) (piece : ChatPiece) (pieces : List ChatPiece) :
    (drawing.step serde piece).done.filter Written.isTool ++
        (drawing.step serde piece).openCall serde pieces ++
        callBlocks serde pieces =
      drawing.done.filter Written.isTool ++ drawing.openCall serde (piece :: pieces) ++
        callBlocks serde (piece :: pieces) := by
  cases piece with
  | reasoning text =>
    rw [openCall_reasoning, step]
    simp only [callBlocks]
    split
    · rfl
    · rename_i skip
      simp only [Bool.or_eq_true, not_or, Bool.not_eq_true] at skip
      have silent := openCall_of_thinking serde fun drawn isOpen =>
        (sorted.current drawn isOpen).mpr skip.2
      split
      · rw [silent]
        rfl
      · rw [reopen_tools, silent, silent]
        simp [Drawing.openCall, reopen]
  | text written =>
    rw [step]
    simp only [callBlocks]
    split
    · rename_i empty
      simp [Drawing.openCall, openArgs, ChatPiece.opensBlock, empty]
    · rename_i spoken
      have ends : (ChatPiece.text written).opensBlock = true := by
        simpa [ChatPiece.opensBlock] using spoken
      rw [openCall_of_opensBlock ends]
      split
      · rename_i texts cur
        simp [Drawing.openCall, cur]
      · rw [reopen_tools]
        simp [Drawing.openCall, reopen]
  | callStart i id name =>
    rw [openCall_of_opensBlock rfl, callBlocks, step, reopen_tools]
    simp [Drawing.openCall, reopen]
  | callArgs i delta =>
    rw [step]
    simp only [callBlocks]
    split
    · rename_i call id name args cur
      by_cases mine : call = i <;>
        simp [mine, Drawing.openCall, cur, openArgs, ChatPiece.opensBlock]
    · rename_i j
      have silent : ∀ rest, drawing.openCall serde rest = [] := by
        intro rest
        rw [Drawing.openCall]
        split
        · rename_i call id name args cur
          exact absurd cur (j call id name args)
        · rfl
      rw [silent, silent]

lemma blocks_tools (sorted : drawing.Sorted) (pieces : List ChatPiece) :
    ((pieces.foldl (step serde) drawing).blocks serde).filter Written.isTool =
      drawing.done.filter Written.isTool ++
        drawing.openCall serde pieces ++ callBlocks serde pieces := by
  induction pieces generalizing drawing with
  | nil =>
    rw [callBlocks, append_nil]
    exact blocks_filter_isTool drawing
  | cons piece pieces ih =>
    rw [foldl_cons, ih (step_sorted sorted piece)]
    exact step_tools sorted piece pieces

/-! ## The stream -/

/-- For every sequence of pieces: the stream is the message start, numbered
content blocks each between its own start and stop, and the two closing
events.  Reasoning comes first; the prose is the prose of the pieces; there is
one tool block for every call, in order, with the arguments that came while it
was open. -/
theorem stream_well_formed (serde : Serde) (id model : Text) (inputTokens : Nat)
    (pieces : List ChatPiece) (hasCalls : Bool) (completion : Completion) :
    ∃ blocks : List Written, Emitter.stream serde id model inputTokens pieces hasCalls completion =
        .messageStart id model inputTokens :: renderAll blocks ++
          [.messageDelta (stopReason completion.stopType hasCalls) completion.stopSequence
              (MessagesUsage.fromCompletion completion),
            .messageStop] ∧
      ThinkingFirst blocks ∧
      blocks.flatMap Written.prose = pieces.flatMap ChatPiece.prose ∧
      blocks.filter Written.isTool = callBlocks serde pieces := by
  have sorted := pieces_sorted serde init_sorted pieces
  refine ⟨_, stream_eq_render serde id model inputTokens pieces hasCalls
    completion, sorted.blocks.2, ?_, ?_⟩
  · exact blocks_text pieces
  · exact blocks_tools init_sorted pieces

end Joshua.Anthropic
