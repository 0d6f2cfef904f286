/-
Module: Joshua.Model.Prefill
Purpose: Feeding a prompt: every layer over all chunks (`stream_prefill`),
  every chunk through all layers, and `Engine::prefill`, which does the second
  when the first fails.
Trusted boundary: the model's calls are arguments, and one that fails leaves
  what it has written; the cost model may choose any number of rows
-/
import Mathlib.Data.List.Basic

namespace Joshua.Prefill

/-- Tokens of the prompt and the position of the first. -/
structure Chunk where
  tokens : List Nat
  pos : Nat
deriving Repr, DecidableEq

/-- The calls of a model whose layers have states `S`.  A session's MTP block
is the layer behind the last: `finish_chunks` takes it over all chunks once the
others are done, `forward_impl` over a chunk behind them, and its call
(`mtp_advance`) hands on the activation that it reads. -/
structure Calls (E S A L : Type) where
  embed : Chunk → Except E A
  layer : Nat → S → Chunk × A → Except E A × S
  head : A → Except E L
  /-- The logits of a sweep's last activations; without chunks, of a token 0. -/
  finalLogits : List A → Except E L

section Loops
variable {E S A B I L : Type}

/-- A loop of calls on one state, up to the first that fails. -/
def callAll (call : S → I → Except E B × S) : S → List I → Except E (List B) × S
  | state, [] => (.ok [], state)
  | state, item :: rest =>
    match call state item with
    | (.error error, state) => (.error error, state)
    | (.ok result, state) =>
      match callAll call state rest with
      | (.error error, state) => (.error error, state)
      | (.ok results, state) => (.ok (result :: results), state)

variable (calls : Calls E S A L)

/-- The layers from `l` on, each over all chunks. -/
def sweep (chunks : List Chunk) : Nat → List S → List A → Except E (List A) × List S
  | _, [], acts => (.ok acts, [])
  | l, state :: states, acts =>
    match callAll (calls.layer l) state (chunks.zip acts) with
    | (.error error, state) => (.error error, state :: states)
    | (.ok acts, state) =>
      let (acts, states) := sweep chunks (l + 1) states acts
      (acts, state :: states)

/-- The loops of `stream_prefill` and of `finish_chunks`: the last activations
of all chunks. -/
def streamPrefill (states : List S) (chunks : List Chunk) : Except E (List A) × List S :=
  match chunks.mapM calls.embed with
  | .error error => (.error error, states)
  | .ok acts => sweep calls chunks 0 states acts

/-- One chunk through the layers from `l` on. -/
def forward : Nat → List S → Chunk × A → Except E A × List S
  | _, [], (_, act) => (.ok act, [])
  | l, state :: states, (chunk, act) =>
    match calls.layer l state (chunk, act) with
    | (.error error, state) => (.error error, state :: states)
    | (.ok act, state) =>
      let (act, states) := forward (l + 1) states (chunk, act)
      (act, state :: states)

/-- `forward_impl` up to its head. -/
def forwardChunk (states : List S) (chunk : Chunk) : Except E A × List S :=
  match calls.embed chunk with
  | .error error => (.error error, states)
  | .ok act => forward calls 0 states (chunk, act)

/-- `forward_tokens`. -/
def forwardTokens (states : List S) (chunk : Chunk) : Except E L × List S :=
  match forwardChunk calls states chunk with
  | (.error error, states) => (.error error, states)
  | (.ok act, states) => (calls.head act, states)

/-- The chunks of a prompt, when `next` gives the rows of the next. -/
def chunksOf (next : Nat → Nat) (base : Nat) (tokens : List Nat) : List Chunk :=
  if tokens = [] then []
  else
    let rows := max (min (next tokens.length) tokens.length) 1
    ⟨tokens.take rows, base⟩ :: chunksOf next (base + rows) (tokens.drop rows)
termination_by tokens.length
decreasing_by
  rename_i filled
  have := List.length_pos_of_ne_nil filled
  rw [List.length_drop]
  omega

/-- `GenSession::prefill_streamed`. -/
def prefillStreamed (streams : Bool) (states : List S) (chunks : List Chunk) :
    Except E (Option L) × List S :=
  if streams then
    match streamPrefill calls states chunks with
    | (.error error, states) => (.error error, states)
    | (.ok acts, states) => ((calls.finalLogits acts).map some, states)
  else (.ok none, states)

/-- `Engine::prefill`; `calls` are those of the sweep and `again` those of the
loop behind it. -/
def prefill (again : Calls E S A L) (streams : Bool) (chunk : Nat) (next : Nat → Nat) (base : Nat)
    (tokens : List Nat) (states : List S) : Except E (Option L) × List S :=
  match prefillStreamed calls streams states (chunksOf (fun _ => chunk) base tokens) with
  | (.ok (some logits), states) => (.ok (some logits), states)
  | (_, states) =>
    match callAll (forwardTokens again) states (chunksOf next base tokens) with
    | (.error error, states) => (.error error, states)
    | (.ok all, states) => (.ok all.getLast?, states)

end Loops

/-! ## Caches -/

/-- The tokens a layer's state holds, and whether the layer drops those from
the position of its input on before it appends. -/
structure Cache where
  guarded : Bool
  tokens : List Nat
deriving Repr, DecidableEq

/-- What a call adds; Qwen's attention also refuses an input behind its end. -/
def Cache.write (cache : Cache) (chunk : Chunk) : Option Cache :=
  if cache.guarded then
    if cache.tokens.length < chunk.pos then none
    else some { cache with tokens := cache.tokens.take chunk.pos ++ chunk.tokens }
  else some { cache with tokens := cache.tokens ++ chunk.tokens }

end Joshua.Prefill
