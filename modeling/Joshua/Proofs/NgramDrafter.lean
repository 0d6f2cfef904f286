/-
Module: Joshua.Proofs.NgramDrafter
Purpose: The drafter's index against a full scan of the context: after any
  history of pushes and drafts, a draft is the periodic continuation of the
  most recent earlier occurrence of the longest trailing n-gram. The numbers
  of different positions or streams differ before they are rounded.
Trusted boundary: none
-/
import Joshua.Foundation.Collections
import Joshua.Model.NgramDrafter

namespace Joshua.Speculative
open Joshua.Foundation

/-! ## What a draft is, by a full scan -/

section
variable (tokens : List Token)

/-- The `n` tokens that end at position `stop`. -/
def gram (n stop : Nat) : List Token :=
  (tokens.take stop).drop (stop - n)

/-- Where the trailing `n` tokens last end, before the end of the context. -/
def lastMatch (n : Nat) : Option Nat :=
  lastUpTo (fun stop => n ≤ stop &&
    gram tokens n stop == gram tokens n tokens.length) (tokens.length - 1)

/-- The tokens from position `stop` on, over and over. -/
def continuation (stop count : Nat) : List Token :=
  (List.range count).map fun offset => (tokens.drop stop).getD (offset % (tokens.length - stop)) 0

end

/-- The draft by a full scan, over the lengths in the given order. -/
def scanDraft (tokens : List Token) (count : Nat) : List Nat → List Token
  | [] => []
  | n :: lengths =>
    if tokens.length < n then scanDraft tokens count lengths
    else
      match lastMatch tokens n with
      | none => scanDraft tokens count lengths
      | some stop => continuation tokens stop count

/-- The drafts of a sequence of calls, each by a full scan of its context. -/
def scanDrafts (lengths : List Nat) (context : List Token) : List Call → List (List Token)
  | [] => []
  | .push token :: calls => scanDrafts lengths (context ++ [token]) calls
  | .draft count :: calls =>
    (if count = 0 then [] else scanDraft context count lengths) :: scanDrafts lengths context calls

/-- No two different n-grams of the context, of a length the drafter uses,
have the same hash. -/
def CollisionFree (lengths : List Nat) (tokens : List Token) : Prop :=
  ∀ n ∈ lengths, ∀ first second : List Token,
    first.length = n → second.length = n → first <:+: tokens →
    second <:+: tokens → hashNgram first = hashNgram second → first = second

/-! ## Slices of the context -/

variable {tokens : List Token} {n stop : Nat}

lemma slice_gram (n : Nat) (lt : stop ≤ tokens.length) :
    slice tokens (stop - n) stop = .ok (gram tokens n stop) := by
  simp [slice, gram, lt]

lemma gram_length (long : n ≤ stop) (lt : stop ≤ tokens.length) :
    (gram tokens n stop).length = n := by
  simp only [gram, List.length_drop, List.length_take, min_eq_left lt]
  exact Nat.sub_sub_self long

lemma gram_infix : gram tokens n stop <:+: tokens := by
  rw [gram]
  exact (List.drop_suffix _ _).isInfix.trans ( List.take_prefix _ _).isInfix

/-- A longer context has the same n-grams at the old positions. -/
lemma gram_append (lt : stop ≤ tokens.length) (more : List Token) :
    gram (tokens ++ more) n stop = gram tokens n stop := by
  simp [gram, List.take_append_of_le_length lt]

variable {drafter : NgramDrafter} {lengths : List Nat}

lemma CollisionFree.of_append {more : List Token} (free : CollisionFree lengths (tokens ++ more)) :
    CollisionFree lengths tokens := by
  intro n mem first second firstLength secondLength one two
  have lt : tokens <:+: tokens ++ more := (List.prefix_append tokens more).isInfix
  exact free n mem first second firstLength secondLength (one.trans lt) (two.trans lt)

/-! ## The index -/

/-- Whether the n-gram that ends at `stop` has a hash. -/
def hashesTo (tokens : List Token) (n : Nat) (hash : UInt64) (stop : Nat) : Bool :=
  n ≤ stop && hashNgram (gram tokens n stop) == hash

/-- The maps hold, for every length and hash, the last end up to `indexed` of
an n-gram with that hash. -/
structure Indexed (drafter : NgramDrafter) : Prop where
  ordered : drafter.config.minNgram ≤ drafter.config.maxNgram
  behind : drafter.indexed ≤ drafter.tokens.length - 1
  maps : ∀ n, drafter.config.minNgram ≤ n → n ≤ drafter.config.maxNgram →
    ∃ map, drafter.index[n - drafter.config.minNgram]? = some map ∧ ∀ hash, map hash =
        lastUpTo (hashesTo drafter.tokens n hash) drafter.indexed

lemma mem_lengths {config : SpeculativeConfig} (ordered : config.minNgram ≤ config.maxNgram)
    : n ∈ config.lengths ↔ config.minNgram ≤ n ∧ n ≤ config.maxNgram := by
  rw [SpeculativeConfig.lengths, List.mem_range'_1]
  omega

/-- Noting the n-gram that ends at `stop` in the map of its length. -/
def noted (tokens : List Token) (stop n : Nat) (map : HashIndex) : HashIndex :=
  if n ≤ stop then
    Function.update map (hashNgram (gram tokens n stop)) (some stop)
  else
    map

lemma noted_lastUpTo {map : HashIndex} {indexed : Nat}
    (known : ∀ hash, map hash = lastUpTo (hashesTo tokens n hash) indexed) (hash : UInt64) :
    noted tokens (indexed + 1) n map hash = lastUpTo (hashesTo tokens n hash) (indexed + 1) := by
  rw [lastUpTo, noted, ← known hash]
  by_cases long : n ≤ indexed + 1
  · by_cases same : hashNgram (gram tokens n (indexed + 1)) = hash
    · simp [long, same, hashesTo]
    · have different : hash ≠ hashNgram (gram tokens n (indexed + 1)) :=
        fun equal => same equal.symm
      simp [long, same, hashesTo, Function.update_of_ne different]
  · simp [long, hashesTo]

/-- The inner loop notes every n-gram that ends at `stop` and leaves the other
lengths alone. -/
lemma indexEnd_spec {minNgram : Nat} {index : List HashIndex}
    (ascending : lengths.Pairwise (· < ·))
    (within : ∀ n ∈ lengths, minNgram ≤ n ∧ n - minNgram < index.length)
    (lt : stop ≤ tokens.length) :
    ∃ next, NgramDrafter.indexEnd minNgram tokens stop lengths index = .ok next ∧
      ∀ n, minNgram ≤ n → next[n - minNgram]? =
        if n ∈ lengths then
          index[n - minNgram]?.map (noted tokens stop n)
        else index[n - minNgram]? := by
  induction lengths generalizing index with
  | nil => exact ⟨index, rfl, fun n _ => by simp⟩
  | cons n lengths ih =>
    rw [List.pairwise_cons] at ascending
    rw [List.forall_mem_cons] at within
    obtain ⟨atLeast, present⟩ := within.1
    rw [NgramDrafter.indexEnd]
    by_cases short : stop < n
    · -- the loop breaks: no longer n-gram ends here either
      rw [if_pos short]
      refine ⟨index, rfl, ?_⟩
      intro length _
      have unnoted : length ∈ n :: lengths → ∀ map, noted tokens stop length map = map := by
        intro mem map
        rw [noted, if_neg]
        rcases List.mem_cons.mp mem with rfl | later
        · exact not_le.mpr short
        · exact not_le.mpr (lt_trans short (ascending.1 length later))
      split
      · rename_i mem
        cases index[length - minNgram]? with
        | none => rfl
        | some map => simp [unnoted mem map]
      · rfl
    · rw [if_neg short, slice_gram n lt]
      have found : item index (n - minNgram) = .ok (index.get ⟨n - minNgram, present⟩) := by
        simp [item, List.getElem?_eq_getElem present]
      simp only [Except.bind, found]
      obtain ⟨next, returns, entries⟩ := @ih
        (index.set (n - minNgram) (Function.update (index.get ⟨n - minNgram, present⟩)
            (hashNgram (gram tokens n stop)) (some stop)))
        ascending.2 (by simpa only [List.length_set] using within.2)
      refine ⟨next, returns, ?_⟩
      intro length long
      rw [entries length long]
      by_cases same : length = n
      · subst same
        have once : length ∉ lengths := fun mem => lt_irrefl _ (ascending.1 length mem)
        have reaches : length ≤ stop := not_lt.mp short
        simp [once, present, noted, reaches]
      · have apart : n - minNgram ≠ length - minNgram := by omega
        simp [same, List.getElem?_set_ne apart]

/-- Every map is there. -/
lemma Indexed.present {drafter : NgramDrafter} (indexed : Indexed drafter) :
    ∀ n ∈ drafter.config.lengths, drafter.config.minNgram ≤ n ∧
      n - drafter.config.minNgram < drafter.index.length := by
  intro n mem
  obtain ⟨atLeast, atMost⟩ := (mem_lengths indexed.ordered).mp mem
  obtain ⟨map, found, _⟩ := indexed.maps n atLeast atMost
  obtain ⟨present, _⟩ := List.getElem?_eq_some_iff.mp found
  exact ⟨atLeast, present⟩

/-- One round of the outer loop. -/
lemma indexEnd_indexed (indexed : Indexed drafter)
    (more : drafter.indexed + 1 ≤ drafter.tokens.length - 1) :
    ∃ index, NgramDrafter.indexEnd drafter.config.minNgram drafter.tokens
        (drafter.indexed + 1) drafter.config.lengths drafter.index = .ok index ∧
      Indexed { drafter with index := index, indexed := drafter.indexed + 1 } := by
  have ascending : drafter.config.lengths.Pairwise (· < ·) := List.pairwise_lt_range'
  obtain ⟨next, returns, entries⟩ := indexEnd_spec ascending indexed.present
    (le_trans more (Nat.sub_le drafter.tokens.length 1))
  refine ⟨next, returns, ⟨indexed.ordered, more, ?_⟩⟩
  intro n atLeast atMost
  obtain ⟨map, found, known⟩ := indexed.maps n atLeast atMost
  have mem := (mem_lengths indexed.ordered).mpr ⟨atLeast, atMost⟩
  refine ⟨noted drafter.tokens (drafter.indexed + 1) n map, ?_, noted_lastUpTo known⟩
  simp only [entries n atLeast]
  rw [if_pos mem, found]
  rfl

variable {count : Nat}

lemma indexEnds_spec (indexed : Indexed drafter)
    (room : drafter.indexed + count ≤ drafter.tokens.length - 1) :
    ∃ next, NgramDrafter.indexEnds (List.range' (drafter.indexed + 1) count) drafter = .ok next ∧
      Indexed next ∧ next.config = drafter.config ∧
      next.tokens = drafter.tokens ∧
      next.indexed = drafter.indexed + count := by
  induction count generalizing drafter with
  | zero => exact ⟨drafter, rfl, indexed, rfl, rfl, rfl⟩
  | succ count ih =>
    rw [← Nat.add_assoc, Nat.add_right_comm] at room
    obtain ⟨i, returns, kept⟩ := indexEnd_indexed indexed (Nat.le_trans (Nat.le_add_right _ _) room)
    obtain ⟨next, rest, nextIndexed, config, tokens, reached⟩ := ih kept room
    refine ⟨next, ?_, nextIndexed, config, tokens, ?_⟩
    · rw [List.range'_succ, NgramDrafter.indexEnds, returns]
      exact rest
    · rw [reached, Nat.add_right_comm, Nat.add_assoc]

/-- `index_pending` notes every n-gram that ends before the end of the
context. -/
lemma indexPending_spec (indexed : Indexed drafter) :
    ∃ next, drafter.indexPending = .ok next ∧ Indexed next ∧
      next.config = drafter.config ∧ next.tokens = drafter.tokens ∧
      next.indexed = drafter.tokens.length - 1 := by
  have behind := indexed.behind
  obtain ⟨next, returns, nextIndexed, config, tokens, reached⟩ :=
    indexEnds_spec indexed (le_of_eq (Nat.add_sub_of_le behind))
  refine ⟨next, returns, nextIndexed, config, tokens, ?_⟩
  rw [reached]
  exact Nat.add_sub_of_le behind

/-! ## The draft -/

lemma continuation_getElem? {offset : Nat} (small : offset < count) :
    (continuation tokens stop count)[offset]? =
      some ((tokens.drop stop).getD (offset % (tokens.length - stop)) 0) := by
  simp [continuation, List.getElem?_range small]

lemma continuation_succ (count : Nat) : continuation tokens stop (count + 1) =
      continuation tokens stop count ++
        [(tokens.drop stop).getD (count % (tokens.length - stop)) 0] := by
  simp [continuation, List.range_succ]

/-- One round of the copying loop reads the context, and past its end the
draft itself one period back. -/
lemma continueFrom_round (lt : stop < tokens.length) :
    (if stop + count < tokens.length then item tokens (stop + count)
      else item (continuation tokens stop count) (stop + count - tokens.length)) =
      .ok ((tokens.drop stop).getD (count % (tokens.length - stop)) 0) := by
  by_cases within : stop + count < tokens.length
  · have small : count < tokens.length - stop := by omega
    rw [if_pos within, item, Nat.mod_eq_of_lt small]
    simp [List.getElem?_drop, List.getElem?_eq_getElem within]
  · have back : stop + count - tokens.length = count - (tokens.length - stop) := by omega
    have earlier : count - (tokens.length - stop) < count := by omega
    have large : tokens.length - stop ≤ count := by omega
    rw [if_neg within, item, back, continuation_getElem? earlier, Nat.mod_eq_sub_mod large]

lemma continueFrom_spec (start count : Nat) (lt : stop < tokens.length) :
    NgramDrafter.continueFrom tokens stop (List.range' start count)
        (continuation tokens stop start) =
      .ok (continuation tokens stop (start + count)) := by
  induction count generalizing start with
  | zero => rfl
  | succ count ih =>
    rw [List.range'_succ, NgramDrafter.continueFrom]
    simp only [continueFrom_round lt, Except.bind]
    rw [← continuation_succ, ih, Nat.add_right_comm]
    rfl

/-- What a stored end is known to be. -/
lemma stored_end {hash : UInt64}
    (found : lastUpTo (hashesTo tokens n hash) (tokens.length - 1) = some stop) :
    n ≤ stop ∧ stop < tokens.length := by
  obtain ⟨pos, small, holds, _⟩ := lastUpTo_eq_some.mp found
  simp only [hashesTo, Bool.and_eq_true, decide_eq_true_eq] at holds
  constructor
  · exact holds.1
  · omega

/-- Without collisions, looking a hash up is looking for the n-gram. -/
lemma lookup_eq_lastMatch (free : CollisionFree lengths tokens)
    (mem : n ∈ lengths) (long : n ≤ tokens.length) :
    lastUpTo (hashesTo tokens n (hashNgram (gram tokens n tokens.length)))
      (tokens.length - 1) = lastMatch tokens n := by
  apply lastUpTo_congr
  intro stop _ small
  have lt : stop ≤ tokens.length := le_trans small (Nat.sub_le _ _)
  by_cases reaches : n ≤ stop
  · have same : hashNgram (gram tokens n stop) = hashNgram (gram tokens n tokens.length) ↔
        gram tokens n stop = gram tokens n tokens.length := by
      constructor
      · exact free n mem _ _ (gram_length reaches lt)
          (gram_length long (le_rfl)) gram_infix gram_infix
      · exact congrArg hashNgram
    simp [hashesTo, reaches, beq_eq_decide, same]
  · simp [hashesTo, reaches]

lemma lastMatch_gram (found : lastMatch tokens n = some stop) :
    gram tokens n stop = gram tokens n tokens.length := by
  obtain ⟨_, _, holds, _⟩ := lastUpTo_eq_some.mp found
  simp only [Bool.and_eq_true, beq_iff_eq] at holds
  exact holds.2

/-- The loop over the lengths returns, and without collisions it returns what
the full scan does. -/
lemma tryLengths_spec (count : Nat) (indexed : Indexed drafter)
    (whole : drafter.indexed = drafter.tokens.length - 1)
    (within : ∀ n ∈ lengths, n ∈ drafter.config.lengths) :
    ∃ result, drafter.tryLengths count lengths = .ok result ∧
      (CollisionFree drafter.config.lengths drafter.tokens →
        result = scanDraft drafter.tokens count lengths) := by
  induction lengths with
  | nil => exact ⟨[], rfl, fun _ => rfl⟩
  | cons n lengths ih =>
    rw [List.forall_mem_cons] at within
    obtain ⟨rest, restReturns, restScan⟩ := ih within.2
    rw [NgramDrafter.tryLengths, scanDraft]
    by_cases short : drafter.tokens.length < n
    · simp only [short, if_true]
      exact ⟨rest, restReturns, restScan⟩
    · obtain ⟨atLeast, atMost⟩ := (mem_lengths indexed.ordered).mp within.1
      obtain ⟨map, found, known⟩ := indexed.maps n atLeast atMost
      have looked : item drafter.index (n - drafter.config.minNgram) = .ok map := by
        simp [item, found]
      have long := not_lt.mp short
      simp only [short, if_false, Except.bind, looked, known, whole,
        slice_gram n (le_refl drafter.tokens.length)]
      cases lookup : lastUpTo (hashesTo drafter.tokens n
          (hashNgram (gram drafter.tokens n drafter.tokens.length)))
          (drafter.tokens.length - 1) with
      | none =>
        refine ⟨rest, restReturns, fun free => ?_⟩
        rw [← lookup_eq_lastMatch free within.1 long, lookup]
        exact restScan free
      | some stop =>
        obtain ⟨reaches, inside⟩ := stored_end lookup
        have valid : ¬ (stop < n ∨ drafter.tokens.length ≤ stop) := by omega
        simp only [valid, if_false, slice_gram n (le_of_lt inside)]
        by_cases same : gram drafter.tokens n stop = gram drafter.tokens n drafter.tokens.length
        · refine ⟨continuation drafter.tokens stop count, ?_, ?_⟩
          · rw [if_neg (not_not.mpr same), List.range_eq_range']
            have copied := continueFrom_spec 0 count inside
            rw [zero_add] at copied
            exact copied
          · intro free
            rw [← lookup_eq_lastMatch free within.1 long, lookup]
        · -- a collision: the n-gram at the stored end is another one
          refine ⟨rest, by rw [if_pos same, restReturns], fun free => ?_⟩
          rw [lookup_eq_lastMatch free within.1 long] at lookup
          exact absurd (lastMatch_gram lookup) same

/-- A draft returns and keeps the index; without collisions it is the draft of
the full scan. -/
lemma draft_spec (indexed : Indexed drafter) (count : Nat) :
    ∃ next result, drafter.draft count = .ok (next, result) ∧
      Indexed next ∧ next.config = drafter.config ∧
      next.tokens = drafter.tokens ∧
      (CollisionFree drafter.config.lengths drafter.tokens → result = if count = 0 then []
          else scanDraft drafter.tokens count drafter.config.lengths.reverse) := by
  rw [NgramDrafter.draft]
  by_cases zero : count = 0
  · rw [if_pos zero]
    refine ⟨drafter, [], rfl, indexed, rfl, rfl, ?_⟩
    intro _
    rw [if_pos zero]
  · obtain ⟨next, pending, nextIndexed, config, tokens, whole⟩ := indexPending_spec indexed
    rw [← tokens] at whole
    have within : ∀ n ∈ next.config.lengths.reverse,
        n ∈ next.config.lengths := fun _ => List.mem_reverse.mp
    obtain ⟨result, returns, scanned⟩ := tryLengths_spec count nextIndexed whole within
    refine ⟨next, result, ?_, nextIndexed, config, tokens, ?_⟩
    · simp [zero, pending, Except.bind, returns, Except.map]
    · intro free
      rw [if_neg zero, ← tokens, ← config]
      apply scanned
      rw [tokens, config]
      exact free

/-! ## Histories -/

lemma new_indexed (config : SpeculativeConfig) (context : List Token) :
    Indexed (NgramDrafter.new config context) where
  ordered := le_max_right _ _
  behind := Nat.zero_le _
  maps := by
    intro n atLeast atMost
    refine ⟨fun _ => none, ?_, fun _ => rfl⟩
    simp only [NgramDrafter.new] at atLeast atMost ⊢
    rw [List.getElem?_replicate, if_pos]
    omega

lemma push_indexed (indexed : Indexed drafter) (token : Token) : Indexed (drafter.push token) where
  ordered := indexed.ordered
  behind := by
    have behind := indexed.behind
    simp only [NgramDrafter.push, List.length_append, List.length_singleton]
    omega
  maps := by
    intro n atLeast atMost
    obtain ⟨map, found, known⟩ := indexed.maps n atLeast atMost
    refine ⟨map, found, ?_⟩
    intro hash
    rw [known hash]
    apply lastUpTo_congr
    intro stop _ small
    have lt : stop ≤ drafter.tokens.length :=
      le_trans small (le_trans indexed.behind (Nat.sub_le _ _))
    simp only [hashesTo, NgramDrafter.push, gram_append lt]

lemma contextAfter_eq_append (context : List Token) (calls : List Call) :
    ∃ pushed, contextAfter context calls = context ++ pushed := by
  induction calls generalizing context with
  | nil => exact ⟨[], by simp [contextAfter]⟩
  | cons call calls ih =>
    cases call with
    | push token =>
      obtain ⟨pushed, rest⟩ := ih (context ++ [token])
      exact ⟨token :: pushed, by simp [contextAfter, rest]⟩
    | draft count => exact ih context

lemma run_spec (indexed : Indexed drafter) (calls : List Call) :
    ∃ drafts, run calls drafter = .ok drafts ∧ (CollisionFree drafter.config.lengths
          (contextAfter drafter.tokens calls) →
        drafts = scanDrafts drafter.config.lengths.reverse drafter.tokens calls) := by
  induction calls generalizing drafter with
  | nil => exact ⟨[], rfl, fun _ => rfl⟩
  | cons call calls ih =>
    cases call with
    | push token => exact ih (push_indexed indexed token)
    | draft count =>
      obtain ⟨next, result, returns, nextIndexed, config, tokens,
        scanned⟩ := draft_spec indexed count
      obtain ⟨rest, restReturns, restScanned⟩ := ih nextIndexed
      rw [config, tokens] at restScanned
      refine ⟨result :: rest, ?_, ?_⟩
      · simp [run, returns, Except.bind, restReturns, Except.map]
      · intro free
        obtain ⟨pushed, grown⟩ := contextAfter_eq_append drafter.tokens calls
        rw [contextAfter] at free
        rw [scanDrafts, ← restScanned free]
        rw [grown] at free
        rw [scanned free.of_append]

/-- After any history of pushes and drafts every draft returns, and if no two
n-grams of the context collide each of them is the one a full scan of its
context gives. -/
theorem drafts_follow_full_scan (config : SpeculativeConfig)
    (context : List Token) (calls : List Call) :
    (∃ drafts, run calls (NgramDrafter.new config context) = .ok drafts) ∧
      (CollisionFree config.normalized.lengths (contextAfter context calls) →
        run calls (NgramDrafter.new config context) =
          .ok (scanDrafts config.normalized.lengths.reverse context calls)) := by
  obtain ⟨drafts, returns, scanned⟩ := run_spec (new_indexed config context) calls
  refine ⟨⟨drafts, returns⟩, ?_⟩
  intro free
  rw [returns, scanned free]
  rfl

lemma collisionFree_replicate (lengths : List Nat) (token : Token) (count : Nat) :
    CollisionFree lengths (List.replicate count token) := by
  intro n _ first second firstLength secondLength one two _
  have same : ∀ gram : List Token, gram <:+: List.replicate count token →
      gram = List.replicate gram.length token := by
    intro gram inside
    apply List.eq_replicate_of_mem
    intro j mem
    exact List.eq_of_mem_replicate (inside.subset mem)
  rw [same first one, same second two, firstLength, secondLength]

/-- A periodic tail is continued through the draft itself. -/
theorem repeated_token_drafted : run [.draft 5, .push 4, .draft 1]
        (NgramDrafter.new ⟨8, 2, 2, true⟩ (List.replicate 3 4)) =
      .ok [[4, 4, 4, 4, 4], [4]] :=
  (drafts_follow_full_scan ⟨8, 2, 2, true⟩ (List.replicate 3 4)
    [.draft 5, .push 4, .draft 1]).2 (collisionFree_replicate _ 4 4)

/-- With `min_ngram = 0` the drafter does not match the empty n-gram: lengths
start at one. -/
theorem empty_ngram_not_matched : (⟨8, 1, 0, true⟩ : SpeculativeConfig).minNgram ≤
        (⟨8, 1, 0, true⟩ : SpeculativeConfig).maxNgram ∧
      CollisionFree [0, 1] [1, 2] ∧
      run [.draft 1] (NgramDrafter.new ⟨8, 1, 0, true⟩ [1, 2]) = .ok [[]] ∧
      scanDrafts [1, 0] [1, 2] [.draft 1] = [[2]] := by
  refine ⟨by decide, ?_, by decide +kernel, by decide⟩
  have grams : ∀ gram : List Token, gram <:+: [1, 2] →
      gram = [] ∨ gram = [1] ∨ gram = [1, 2] ∨ gram = [2] := by
    intro gram inside
    simp only [List.infix_cons_iff, List.prefix_cons_iff, List.prefix_nil, List.infix_nil] at inside
    rcases inside with (rfl | ⟨_, rfl, rfl | ⟨_, rfl, rfl⟩⟩) |
      (rfl | ⟨_, rfl, rfl⟩) | rfl <;> decide
  have different : hashNgram [1] ≠ hashNgram [2] := by decide +kernel
  intro n _ first second firstLength secondLength one two same
  rcases grams first one with rfl | rfl | rfl | rfl <;>
    rcases grams second two with rfl | rfl | rfl | rfl <;>
    first
      | rfl
      | exact absurd (firstLength.trans secondLength.symm) (by decide)
      | exact absurd same different
      | exact absurd same.symm different

/-! ## The mixing of positions and streams -/

open Function (Injective)

/-- The bits of a word can be read off from the highest one down. -/
lemma xor_shift_injective {shift : UInt64} (positive : 0 < shift.toNat % 64) :
    Injective fun word : UInt64 => word ^^^ word >>> shift := by
  intro first second same
  have bits : ∀ count i, 64 ≤ i + count → first.toBitVec.getLsbD i = second.toBitVec.getLsbD i := by
    intro count
    induction count with
    | zero => intro i high; rw [BitVec.getLsbD_of_ge _ i high, BitVec.getLsbD_of_ge _ i high]
    | succ count ih =>
      intro i high
      have here := congrArg (fun word : UInt64 => word.toBitVec.getLsbD i) same
      have later := ih (shift.toNat % 64 + i) (by omega)
      simpa [later] using here
  exact UInt64.toBitVec_inj.mp (BitVec.eq_of_getLsbD_eq fun i _ => bits 64 i (Nat.le_add_left _ _))

lemma mul_injective {factor : UInt64} (inverse : UInt64) (unit : factor * inverse = 1) :
    Injective fun word => word * factor := by
  refine Function.LeftInverse.injective (g := (· * inverse)) fun word => ?_
  dsimp only
  rw [UInt64.mul_assoc, unit, UInt64.mul_one]

lemma mix_injective : Injective mix := by
  intro first second same
  have third := xor_shift_injective (by decide) same
  have middle := mul_injective 0x319642B2D24D8EC3 rfl third
  have middle := xor_shift_injective (by decide) middle
  have start := mul_injective 0x96DE1B173F119089 rfl middle
  have start := xor_shift_injective (by decide) start
  simpa using start

/-- For one seed, different positions of one stream and different streams at
one position give different numbers. -/
theorem splitmix_injective (seed : UInt64) :
    (∀ stream, Injective fun pos => splitmix seed pos stream) ∧
      ∀ pos, Injective fun stream => splitmix seed pos stream := by
  refine ⟨fun stream first second same => ?_, fun pos first second same => ?_⟩
  · have inner := (UInt64.xor_left_inj _).mp (mix_injective same)
    have product := (UInt64.xor_right_inj _).mp (mix_injective inner)
    exact mul_injective 0xF1DE83E19937733D rfl product
  · have product := (UInt64.xor_right_inj _).mp (mix_injective same)
    exact mul_injective 0x96DE1B173F119089 rfl product

end Joshua.Speculative
