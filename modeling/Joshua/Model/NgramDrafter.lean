/-
Module: Joshua.Model.NgramDrafter
Purpose: The prompt-lookup drafter (`speculative.rs`, `NgramDrafter`): an index
  from the hash of every n-gram of the context to the end of its latest
  occurrence, filled lazily, and drafts that continue such an occurrence; the
  numbers that tokens are sampled with (`splitmix_uniform`).
Trusted boundary: a hash map is its lookup function; an index or a slice
  outside its vector is a fault; reserving memory for a draft succeeds.
-/
import Joshua.Foundation.Bytes
import Joshua.Foundation.Machine
import Joshua.Model.Basic

namespace Joshua.Speculative
open Joshua.Foundation

structure SpeculativeConfig where
  maxDraft : Nat
  maxNgram : Nat
  minNgram : Nat
  costGate : Bool
deriving Repr, DecidableEq

/-- `normalized`: at least one draft token and
`1 ≤ min_ngram ≤ max_ngram`. -/
def SpeculativeConfig.normalized (config : SpeculativeConfig) : SpeculativeConfig :=
  let minNgram := max config.minNgram 1
  { maxDraft := max config.maxDraft 1
    maxNgram := max config.maxNgram minNgram
    minNgram := minNgram
    costGate := config.costGate }

/-- The lengths `min_ngram..=max_ngram`. -/
def SpeculativeConfig.lengths (config : SpeculativeConfig) : List Nat :=
  List.range' config.minNgram (config.maxNgram - config.minNgram + 1)

/-- The n-grams of one length: from a hash to the end of its latest
occurrence. -/
abbrev HashIndex := UInt64 → Option Nat

structure NgramDrafter where
  config : SpeculativeConfig
  tokens : List Token
  /-- One map per n-gram length, the shortest first. -/
  index : List HashIndex
  /-- The end positions `1, …, indexed` are in the maps. -/
  indexed : Nat

/-- FNV-1a over the token ids. -/
def hashNgram (tokens : List Token) : UInt64 :=
  tokens.foldl (fun hash token =>
    (leBytes 4 token.toNat).foldl (fun hash byte => (hash ^^^ byte.toUInt64) * 0x100000001b3) hash)
    0xcbf29ce484222325

/-- `&tokens[start..stop]`. -/
def slice (tokens : List Token) (start stop : Nat) : Except Fault (List Token) :=
  if start ≤ stop ∧ stop ≤ tokens.length then
    .ok ((tokens.take stop).drop start)
  else
    .error .range

/-- `items[position]`. -/
def item {α : Type} (items : List α) (position : Nat) : Except Fault α :=
  match items[position]? with
  | some found => .ok found
  | none => .error .range

namespace NgramDrafter

def new (config : SpeculativeConfig) (context : List Token) : NgramDrafter :=
  let config := config.normalized
  { config := config
    tokens := context
    index := List.replicate (config.maxNgram - config.minNgram + 1) fun _ => none
    indexed := 0 }

def push (token : Token) (drafter : NgramDrafter) : NgramDrafter :=
  { drafter with tokens := drafter.tokens ++ [token] }

/-- The inner loop of `index_pending`: note every n-gram that ends at
`stop`. -/
def indexEnd (minNgram : Nat) (tokens : List Token) (stop : Nat) :
    List Nat → List HashIndex → Except Fault (List HashIndex)
  | [], index => .ok index
  | n :: lengths, index =>
    if stop < n then
      .ok index
    else
      (slice tokens (stop - n) stop).bind fun gram =>
        (item index (n - minNgram)).bind fun map =>
          indexEnd minNgram tokens stop lengths
            (index.set (n - minNgram) (Function.update map (hashNgram gram) (some stop)))

/-- The outer loop of `index_pending`, over the given end positions. -/
def indexEnds : List Nat → NgramDrafter → Except Fault NgramDrafter
  | [], drafter => .ok drafter
  | stop :: stops, drafter =>
    (indexEnd drafter.config.minNgram drafter.tokens stop
      drafter.config.lengths drafter.index).bind fun index =>
        indexEnds stops { drafter with index := index, indexed := stop }

/-- `index_pending`: `while indexed + 1 < len`. -/
def indexPending (drafter : NgramDrafter) : Except Fault NgramDrafter :=
  indexEnds
    (List.range' (drafter.indexed + 1) (drafter.tokens.length - 1 - drafter.indexed)) drafter

/-- The loop that copies a continuation, over the given offsets. -/
def continueFrom (tokens : List Token) (stop : Nat) :
    List Nat → List Token → Except Fault (List Token)
  | [], draft => .ok draft
  | offset :: offsets, draft =>
    let position := stop + offset
    (if position < tokens.length then item tokens position
      else item draft (position - tokens.length)).bind fun token =>
        continueFrom tokens stop offsets (draft ++ [token])

/-- The loop of `draft_into` over the lengths. -/
def tryLengths (drafter : NgramDrafter) (maxTokens : Nat) : List Nat → Except Fault (List Token)
  | [] => .ok []
  | n :: lengths =>
    let tokens := drafter.tokens
    if tokens.length < n then
      tryLengths drafter maxTokens lengths
    else
      (slice tokens (tokens.length - n) tokens.length).bind fun suffix =>
        (item drafter.index (n - drafter.config.minNgram)).bind fun map =>
          match map (hashNgram suffix) with
          | none => tryLengths drafter maxTokens lengths
          | some stop =>
            if stop < n ∨ tokens.length ≤ stop then
              tryLengths drafter maxTokens lengths
            else
              (slice tokens (stop - n) stop).bind fun gram =>
                -- the stored occurrence must really be this n-gram
                if gram ≠ suffix then
                  tryLengths drafter maxTokens lengths
                else
                  continueFrom tokens stop (List.range maxTokens) []

/-- `draft`. -/
def draft (maxTokens : Nat) (drafter : NgramDrafter) : Except Fault (NgramDrafter × List Token) :=
  if maxTokens = 0 then
    .ok (drafter, [])
  else
    drafter.indexPending.bind fun drafter =>
      (drafter.tryLengths maxTokens drafter.config.lengths.reverse).map
        fun draft => (drafter, draft)

end NgramDrafter

/-! ## Histories -/

/-- A call on a drafter. -/
inductive Call
  | push (token : Token)
  | draft (maxTokens : Nat)

/-- The drafts of a sequence of calls. -/
def run : List Call → NgramDrafter → Except Fault (List (List Token))
  | [], _ => .ok []
  | .push token :: calls, drafter => run calls (drafter.push token)
  | .draft maxTokens :: calls, drafter =>
    (drafter.draft maxTokens).bind fun drafted =>
      (run calls drafted.1).map fun drafts => drafted.2 :: drafts

/-- The context after a sequence of calls. -/
def contextAfter (context : List Token) : List Call → List Token
  | [] => context
  | .push token :: calls => contextAfter (context ++ [token]) calls
  | .draft _ :: calls => contextAfter context calls

/-! ## Random numbers -/

/-- The `mix` of `splitmix_uniform`. -/
def mix (word : UInt64) : UInt64 :=
  let word := word + 0x9E3779B97F4A7C15
  let word := (word ^^^ word >>> 30) * 0xBF58476D1CE4E5B9
  let word := (word ^^^ word >>> 27) * 0x94D049BB133111EB
  word ^^^ word >>> 31

/-- `splitmix_uniform` before the conversion to a float. -/
def splitmix (seed pos stream : UInt64) : UInt64 :=
  mix (mix (seed ^^^ pos * 0x9E3779B97F4A7C15) ^^^ stream * 0xBF58476D1CE4E5B9)

end Joshua.Speculative
