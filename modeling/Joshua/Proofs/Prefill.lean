/-
Module: Joshua.Proofs.Prefill
Purpose: The two orders of layers and chunks do the same, and what a failed
  sweep leaves to the loop behind it.
Trusted boundary: none
-/
import Joshua.Foundation.Gather
import Joshua.Model.Prefill

namespace Joshua.Prefill
open Joshua.Foundation List

variable {E S A B I L : Type}

/-! ## The two orders -/

variable {call : S → I → Except E B × S}

lemma callAll_cons {state after : S} {item : I} {rest : List I} {out : List B} :
    callAll call state (item :: rest) = (.ok out, after) ↔
      ∃ result between results, call state item = (.ok result, between) ∧
        callAll call between rest = (.ok results, after) ∧ out = result :: results := by
  rw [callAll]
  grind

lemma callAll_length {state after : S} {items : List I} {out : List B}
    (ran : callAll call state items = (.ok out, after)) : out.length = items.length := by
  induction items generalizing state out with
  | nil =>
    cases ran
    rfl
  | cons item rest ih =>
    obtain ⟨_, _, results, _, later, rfl⟩ := callAll_cons.mp ran
    simp [ih later]

variable {calls : Calls E S A L} {l : Nat} {state : S} {states after : List S} {chunk : Chunk}
  {chunks : List Chunk} {acts outs : List A}

lemma forward_cons {act out : A} :
    forward calls l (state :: states) (chunk, act) = (.ok out, after) ↔
      ∃ between first others, calls.layer l state (chunk, act) = (.ok between, first) ∧
        forward calls (l + 1) states (chunk, between) = (.ok out, others) ∧
        after = first :: others := by
  rw [forward]
  grind

lemma sweep_cons : sweep calls chunks l (state :: states) acts = (.ok outs, after) ↔
      ∃ between first others,
        callAll (calls.layer l) state (chunks.zip acts) = (.ok between, first) ∧
        sweep calls chunks (l + 1) states between = (.ok outs, others) ∧
        after = first :: others := by
  rw [sweep]
  grind

lemma callAll_forward_nil (inputs : List (Chunk × A)) :
    callAll (forward calls l) [] inputs = (.ok (inputs.map Prod.snd), []) := by
  induction inputs with
  | nil => rfl
  | cons input rest ih => simp [callAll, forward, ih]

/-- The first layer may run over all inputs before the others. -/
lemma callAll_forward_cons {inputs : List (Chunk × A)} :
    callAll (forward calls l) (state :: states) inputs = (.ok outs, after) ↔
      ∃ between first others, callAll (calls.layer l) state inputs = (.ok between, first) ∧
        callAll (forward calls (l + 1)) states ((inputs.map Prod.fst).zip between) =
          (.ok outs, others) ∧
        after = first :: others := by
  induction inputs generalizing state states outs with
  | nil => simp [callAll, eq_comm]
  | cons input rest ih =>
    obtain ⟨chunk, act⟩ := input
    constructor
    · intro ran
      obtain ⟨_, _, _, here, later, rfl⟩ := callAll_cons.mp ran
      obtain ⟨_, _, _, own, beyond, rfl⟩ := forward_cons.mp here
      obtain ⟨_, _, _, rows, columns, rfl⟩ := ih.mp later
      exact ⟨_, _, _, callAll_cons.mpr ⟨_, _, _, own, rows, rfl⟩,
        callAll_cons.mpr ⟨_, _, _, beyond, columns, rfl⟩, rfl⟩
    · rintro ⟨_, _, _, rows, columns, rfl⟩
      obtain ⟨_, _, _, own, above, rfl⟩ := callAll_cons.mp rows
      obtain ⟨_, _, _, beyond, aside, rfl⟩ := callAll_cons.mp columns
      exact callAll_cons.mpr ⟨_, _, _, forward_cons.mpr ⟨_, _, _, own, beyond, rfl⟩,
        ih.mpr ⟨_, _, _, above, aside, rfl⟩, rfl⟩

lemma sweep_iff (lengths : acts.length = chunks.length) :
    sweep calls chunks l states acts = (.ok outs, after) ↔
      callAll (forward calls l) states (chunks.zip acts) = (.ok outs, after) := by
  induction states generalizing l acts after with
  | nil => rw [sweep, callAll_forward_nil, map_snd_zip lengths.le]
  | cons state states ih =>
    rw [callAll_forward_cons, sweep_cons, map_fst_zip lengths.ge]
    refine exists_congr fun between => exists_congr fun first => exists_congr fun others =>
      and_congr_right fun ran => and_congr_left fun _ => ih ?_
    rw [callAll_length ran, length_zip, lengths, Nat.min_self]

lemma forwardChunk_iff {out : A} : forwardChunk calls states chunk = (.ok out, after) ↔
      ∃ act, calls.embed chunk = .ok act ∧
        forward calls 0 states (chunk, act) = (.ok out, after) := by
  rw [forwardChunk]
  grind

lemma streamPrefill_iff : streamPrefill calls states chunks = (.ok outs, after) ↔
      ∃ acts, chunks.mapM calls.embed = .ok acts ∧
        sweep calls chunks 0 states acts = (.ok outs, after) := by
  rw [streamPrefill]
  grind

lemma callAll_forwardChunk : callAll (forwardChunk calls) states chunks = (.ok outs, after) ↔
      ∃ acts, chunks.mapM calls.embed = .ok acts ∧
        callAll (forward calls 0) states (chunks.zip acts) = (.ok outs, after) := by
  induction chunks generalizing states outs with
  | nil =>
    constructor
    · exact fun ran => ⟨[], rfl, ran⟩
    · rintro ⟨_, _, ran⟩
      exact ran
  | cons chunk rest ih =>
    rw [callAll_cons]
    constructor
    · rintro ⟨_, _, _, here, later, rfl⟩
      obtain ⟨act, embeds, ran⟩ := forwardChunk_iff.mp here
      obtain ⟨acts, embedded, others⟩ := ih.mp later
      refine ⟨act :: acts, ?_, callAll_cons.mpr ⟨_, _, _, ran, others, rfl⟩⟩
      rw [mapM_cons, embeds, embedded]
      rfl
    · rintro ⟨_, embedded, ran⟩
      rw [mapM_cons] at embedded
      obtain ⟨act, embeds, more⟩ := bind_eq_ok.mp embedded
      obtain ⟨acts, others, same⟩ := bind_eq_ok.mp more
      cases same
      obtain ⟨_, _, _, here, later, rfl⟩ := callAll_cons.mp ran
      exact ⟨_, _, _, forwardChunk_iff.mpr ⟨act, embeds, here⟩, ih.mpr ⟨acts, others, later⟩, rfl⟩

/-- Streamed or chunk by chunk, the layers end in the same states with the same
activations. -/
theorem streamPrefill_iff_chunked (calls : Calls E S A L) (states after : List S)
    (chunks : List Chunk) (outs : List A) :
    streamPrefill calls states chunks = (.ok outs, after) ↔
      callAll (forwardChunk calls) states chunks = (.ok outs, after) := by
  rw [streamPrefill_iff, callAll_forwardChunk]
  refine exists_congr fun acts => and_congr_right fun embedded => sweep_iff ?_
  exact (forall₂_of_mapM_eq_ok embedded).length_eq.symm

/-! ## What the caches hold -/

/-- Calls that succeed write what they should. -/
def Writes (calls : Calls E Cache A L) : Prop :=
  ∀ l cache chunk act out after, calls.layer l cache (chunk, act) = (.ok out, after) →
    cache.write chunk = some after

/-- What a layer keeps before it appends at a position. -/
def Cache.kept (cache : Cache) (pos : Nat) : List Nat :=
  if cache.guarded then cache.tokens.take pos else cache.tokens

lemma Cache.write_eq_some {cache after : Cache} (written : cache.write chunk = some after) :
    after.guarded = cache.guarded ∧ after.tokens = cache.kept chunk.pos ++ chunk.tokens := by
  rw [write] at written
  grind [kept]

/-- What a layer holds once it has been fed tokens from a position on. -/
def Cache.fed (pos : Nat) (tokens : List Nat) (cache : Cache) : List Nat :=
  (if tokens = [] then cache.tokens else cache.kept pos) ++ tokens

/-- Which calls of a sweep fail, by layer and position, and how many tokens of
its chunk a layer's call that fails has written. -/
structure Faults where
  embed : Nat → Bool
  layer : Nat → Nat → Option Nat
  finalLogits : Bool

/-- Calls that fail where they are told, and write what they should
elsewhere. -/
structure Obeys (faults : Faults) (calls : Calls E Cache A L) : Prop where
  writes : Writes calls
  embed : ∀ chunk, (∃ act, calls.embed chunk = .ok act) ↔ faults.embed chunk.pos = false
  fails : ∀ l cache chunk act, cache.write chunk ≠ none →
    match faults.layer l chunk.pos with
    | none => ∃ out after, calls.layer l cache (chunk, act) = (.ok out, after)
    | some n => ∃ error, calls.layer l cache (chunk, act) =
        (.error error, { cache with tokens := cache.kept chunk.pos ++ chunk.tokens.take n })
  finalLogits : ∀ acts, (∃ logits, calls.finalLogits acts = .ok logits) ↔
    faults.finalLogits = false

namespace Faults
variable (faults : Faults) (chunks : List Chunk) (states : List Cache)

/-- No call of the layer fails. -/
def Clean (l : Nat) : Prop :=
  ∀ chunk ∈ chunks, faults.layer l chunk.pos = none

/-- The sweep returns logits. -/
structure Completes : Prop where
  embed : ∀ chunk ∈ chunks, faults.embed chunk.pos = false
  layer : ∀ l < states.length, faults.Clean chunks l
  finalLogits : faults.finalLogits = false

/-- From layer `first` on, every layer that the sweep comes to and writes to is
guarded. -/
def GuardedFrom (pos first : Nat) : Prop :=
  ∀ entry ∈ states.zipIdx first, (∀ l, first ≤ l → l < entry.2 → faults.Clean chunks l) →
    faults.layer entry.2 pos ≠ some 0 → entry.1.guarded = true

/-- Every layer that the sweep writes to is guarded. -/
def Recovers (pos : Nat) : Prop :=
  (∀ chunk ∈ chunks, faults.embed chunk.pos = false) → faults.GuardedFrom chunks states pos 0

end Faults

section Caches
variable {calls again : Calls E Cache A L} {states after : List Cache}
  {next : Nat → Nat} {pos : Nat}
  {base tokens : List Nat} {faults : Faults}

lemma callAll_fed (writes : Writes calls) {cache after : Cache}
    (lengths : acts.length = (chunksOf next pos tokens).length)
    (ran : callAll (calls.layer l) cache ((chunksOf next pos tokens).zip acts) =
      (.ok outs, after)) : after.tokens = cache.fed pos tokens := by
  fun_induction chunksOf next pos tokens generalizing cache acts outs with
  | case1 =>
    cases ran
    simp [Cache.fed]
  | case2 pos tokens filled rows =>
    rename_i ih
    cases acts with
    | nil => cases lengths
    | cons act acts =>
      obtain ⟨_, between, _, here, later, rfl⟩ := callAll_cons.mp ran
      obtain ⟨kind, written⟩ := Cache.write_eq_some (writes _ _ _ _ _ _ here)
      -- the layer now ends where the next chunk starts
      have whole : between.kept (pos + rows) = between.tokens := by
        rw [Cache.kept, kind]
        split
        next guarded =>
          apply take_of_length_le
          simp [written, Cache.kept, guarded]
          omega
        next => rfl
      rw [ih (Nat.succ.inj lengths) later, Cache.fed, whole, ite_self, written]
      simp [Cache.fed, filled]

lemma sweep_fed (writes : Writes calls)
    (lengths : acts.length = (chunksOf next pos tokens).length)
    (ran : sweep calls (chunksOf next pos tokens) l states acts = (.ok outs, after)) :
    after.map Cache.tokens = states.map (Cache.fed pos tokens) := by
  induction states generalizing l acts after with
  | nil =>
    cases ran
    rfl
  | cons cache states ih =>
    obtain ⟨between, _, _, here, later, rfl⟩ := sweep_cons.mp ran
    have same : between.length = _ := callAll_length here
    rw [length_zip, lengths, Nat.min_self] at same
    rw [map_cons, map_cons, callAll_fed writes lengths here, ih same later]

/-- The layer's tokens are `base` once it has dropped what it drops. -/
def Cache.Ready (base tokens : List Nat) (cache : Cache) : Prop :=
  (if tokens = [] then cache.tokens else cache.kept base.length) = base

lemma ready_of_held {cache : Cache} (held : cache.tokens = base) : cache.Ready base tokens := by
  simp [Cache.Ready, Cache.kept, held]

lemma forall_right_iff (fed : after.map Cache.tokens = states.map (Cache.fed base.length tokens)) :
    (∀ cache ∈ after, cache.tokens = base ++ tokens) ↔
      ∀ cache ∈ states, cache.Ready base tokens := by
  have held := forall_mem_map (f := Cache.tokens) (P := (· = base ++ tokens)) (l := after)
  rw [← held, fed, forall_mem_map]
  simp [Cache.fed, Cache.Ready]

/-- What a layer that ends at a position is left with: it has tokens more
unless its first call failed before it wrote. -/
lemma callAll_left (obeys : Obeys faults calls) {cache : Cache} (ends : cache.tokens.length = pos)
    (lengths : acts.length = (chunksOf next pos tokens).length) :
    ∃ result x, callAll (calls.layer l) cache ((chunksOf next pos tokens).zip acts) =
        (result, { cache with tokens := cache.tokens ++ x }) ∧
      ((∃ outs, result = .ok outs) ↔ faults.Clean (chunksOf next pos tokens) l) ∧
      (tokens ≠ [] → (x = [] ↔ faults.layer l pos = some 0)) := by
  fun_induction chunksOf next pos tokens generalizing cache acts with
  | case1 => exact ⟨.ok [], [], by simp [callAll], by simp [Faults.Clean], absurd rfl⟩
  | case2 pos tokens filled rows =>
    rename_i ih
    cases acts with
    | nil => cases lengths
    | cons act acts =>
      have size := length_pos_of_ne_nil filled
      have nonempty : tokens.take rows ≠ [] := by
        rw [Ne, take_eq_nil_iff]
        simp only [filled, or_false]
        omega
      have kept : cache.kept pos = cache.tokens := by
        rw [Cache.kept, take_of_length_le ends.le, ite_self]
      have written : cache.write ⟨tokens.take rows, pos⟩ =
          some { cache with tokens := cache.tokens ++ tokens.take rows } := by
        simp only [Cache.write, ends, lt_irrefl, if_false, take_of_length_le ends.le, ite_self]
      have called := obeys.fails l cache ⟨tokens.take rows, pos⟩ act (by simp [written])
      rw [zip_cons_cons, callAll, Faults.Clean, forall_mem_cons]
      cases fate : faults.layer l pos with
      | none =>
        rw [fate] at called
        obtain ⟨out, after, called⟩ := called
        cases (obeys.writes _ _ _ _ _ _ called).symm.trans written
        have further : (cache.tokens ++ tokens.take rows).length = pos + rows := by
          rw [length_append, ends, length_take]
          omega
        obtain ⟨result, x, ran, clean, _⟩ :=
          @ih acts { cache with tokens := cache.tokens ++ tokens.take rows } further
            (Nat.succ.inj lengths)
        rw [called]
        dsimp only
        rw [ran]
        cases result
        all_goals
          refine ⟨_, tokens.take rows ++ x, by simp; rfl, ?_, fun _ => by simp [nonempty]⟩
          simpa [fate, Faults.Clean] using clean
      | some n =>
        rw [fate] at called
        obtain ⟨error, called⟩ := called
        rw [called, kept]
        exact ⟨_, (tokens.take rows).take n, rfl, by simp, fun _ => by simp [nonempty]⟩

lemma mapM_embed_ok (obeys : Obeys faults calls) :
    (∃ acts, chunks.mapM calls.embed = .ok acts) ↔
      ∀ chunk ∈ chunks, faults.embed chunk.pos = false := by
  induction chunks with
  | nil => simp [pure, Except.pure]
  | cons chunk rest ih =>
    rw [forall_mem_cons, ← ih, ← obeys.embed chunk, mapM_cons]
    constructor
    · rintro ⟨_, embedded⟩
      obtain ⟨act, embeds, more⟩ := bind_eq_ok.mp embedded
      obtain ⟨acts, others, _⟩ := bind_eq_ok.mp more
      exact ⟨⟨act, embeds⟩, acts, others⟩
    · rintro ⟨⟨act, embeds⟩, acts, others⟩
      exact ⟨act :: acts, by rw [embeds, others]; rfl⟩

section Sweep
variable (obeys : Obeys faults calls) (held : ∀ cache ∈ states, cache.tokens = base)
  (filled : tokens ≠ []) (cut : chunks = chunksOf next base.length tokens)
include obeys held filled cut

/-- A sweep gets through if every layer is clean, and what it leaves is ready
if the layers that it wrote to are guarded. -/
lemma sweep_ready (lengths : acts.length = chunks.length) :
    ((∃ outs, (sweep calls chunks l states acts).1 = .ok outs) ↔
      ∀ i, l ≤ i → i < l + states.length → faults.Clean chunks i) ∧
    ((∀ cache ∈ (sweep calls chunks l states acts).2, cache.Ready base tokens) ↔
      faults.GuardedFrom chunks states base.length l) := by
  induction states generalizing l acts with
  | nil =>
    simp [sweep, Faults.GuardedFrom]
    omega
  | cons cache states ih =>
    obtain ⟨here, held⟩ := forall_mem_cons.mp held
    obtain ⟨result, x, ran, clean, wrote⟩ :=
      callAll_left obeys (congrArg length here) (cut ▸ lengths)
    rw [← cut] at ran clean
    have own : Cache.Ready base tokens { cache with tokens := cache.tokens ++ x } ↔
        (faults.layer l base.length ≠ some 0 → cache.guarded = true) := by
      rw [Cache.Ready, if_neg filled, Cache.kept, Ne, ← wrote filled]
      cases cache.guarded <;> simp [here]
    have first : (∀ i, l ≤ i → i < l → faults.Clean chunks i) := by omega
    rw [sweep, ran, Faults.GuardedFrom, zipIdx_cons, forall_mem_cons, forall_prop_of_true first,
      ← own]
    cases result with
    | error error =>
      have dirty : ¬ faults.Clean chunks l := fun all => by simpa using clean.mpr all
      refine ⟨iff_of_false (by simp) fun all => dirty (all l le_rfl (by simp)), ?_⟩
      rw [forall_mem_cons]
      refine and_congr_right fun _ => iff_of_true (fun other mem => ?_) fun entry mem reached => ?_
      · exact ready_of_held (held other mem)
      · exact absurd (reached l le_rfl (le_snd_of_mem_zipIdx mem)) dirty
    | ok outs =>
      have same : outs.length = _ := callAll_length ran
      rw [length_zip, lengths, Nat.min_self] at same
      obtain ⟨through, ready⟩ := @ih (l + 1) outs held same
      -- the layers behind a clean one are reached as before
      have beyond (i : Nat) (P : Prop) : (l ≤ i → P → faults.Clean chunks i) ↔
          (l + 1 ≤ i → P → faults.Clean chunks i) := by
        refine ⟨fun all le => all (by omega), fun all le p => ?_⟩
        rcases Nat.eq_or_lt_of_le le with rfl | lt
        · exact clean.mp ⟨outs, rfl⟩
        · exact all lt p
      have total : l + (cache :: states).length = l + 1 + states.length := by
        rw [length_cons]
        omega
      dsimp only
      rw [forall_mem_cons, ready, through, total]
      simp only [Faults.GuardedFrom, beyond, and_true]

/-- What a sweep over some tokens returns and leaves. -/
lemma prefillStreamed_ready :
    ∃ result left, prefillStreamed calls true states chunks = (result, left) ∧
      ((∃ logits, result = .ok (some logits)) ↔ faults.Completes chunks states) ∧
      ((∀ cache ∈ left, cache.Ready base tokens) ↔ faults.Recovers chunks states base.length) := by
  have embeds : (∃ acts, chunks.mapM calls.embed = .ok acts) ↔ _ := mapM_embed_ok obeys
  rw [prefillStreamed, if_pos rfl, streamPrefill]
  cases embedded : chunks.mapM calls.embed with
  | error error =>
    have broken : ¬ ∀ chunk ∈ chunks, faults.embed chunk.pos = false := by
      rw [← embeds, embedded]
      simp
    refine ⟨_, _, rfl, iff_of_false (by simp) fun completes => broken completes.embed, ?_⟩
    exact iff_of_true (fun cache mem => ready_of_held (held cache mem)) fun embed =>
      absurd embed broken
  | ok acts =>
    have whole := embeds.mp ⟨acts, embedded⟩
    have lengths := (forall₂_of_mapM_eq_ok embedded).length_eq.symm
    obtain ⟨through, ready⟩ := sweep_ready obeys held filled cut lengths (l := 0)
    have ready : (∀ cache ∈ (sweep calls chunks 0 states acts).2, cache.Ready base tokens) ↔
        faults.Recovers chunks states base.length := by
      rw [ready, Faults.Recovers, forall_prop_of_true whole]
    simp only [Nat.zero_le, true_implies, Nat.zero_add] at through
    dsimp only
    generalize sweep calls chunks 0 states acts = swept at *
    obtain ⟨_ | outs, left⟩ := swept
    · refine ⟨_, _, rfl, iff_of_false (by simp) fun completes => ?_, ready⟩
      simpa using through.mpr completes.layer
    · refine ⟨_, _, rfl, ?_, ready⟩
      have completes : faults.Completes chunks states ↔ faults.finalLogits = false :=
        ⟨fun completes => completes.finalLogits, fun last => ⟨whole, through.mp ⟨outs, rfl⟩, last⟩⟩
      rw [completes, ← obeys.finalLogits outs]
      cases calls.finalLogits outs <;> simp [Except.map]

end Sweep

lemma prefillStreamed_done {streams : Bool} {logits : L}
    (ran : prefillStreamed calls streams states chunks = (.ok (some logits), after)) :
    ∃ outs, streamPrefill calls states chunks = (.ok outs, after) := by
  rw [prefillStreamed] at ran
  grind [Except.map]

lemma callAll_forwardTokens {all : List L}
    (ran : callAll (forwardTokens calls) states chunks = (.ok all, after)) :
    ∃ outs, callAll (forwardChunk calls) states chunks = (.ok outs, after) := by
  induction chunks generalizing states all with
  | nil =>
    cases ran
    exact ⟨[], rfl⟩
  | cons chunk rest ih =>
    obtain ⟨_, between, _, here, later, rfl⟩ := callAll_cons.mp ran
    have forwarded : ∃ act, forwardChunk calls states chunk = (.ok act, between) := by
      rw [forwardTokens] at here
      grind
    obtain ⟨act, first⟩ := forwarded
    obtain ⟨outs, others⟩ := ih later
    exact ⟨act :: outs, callAll_cons.mpr ⟨_, _, _, first, others, rfl⟩⟩

/-- Over no tokens every layer stays as it is. -/
lemma prefillStreamed_nil {streams : Bool} {outcome : Except E (Option L)}
    (ran : prefillStreamed calls streams states [] = (outcome, after)) : after = states := by
  have still : ∀ l, sweep calls [] l states [] = (.ok [], states) := by
    clear ran
    induction states with
    | nil => exact fun l => rfl
    | cons cache states ih => simp [sweep, callAll, ih]
  have stays : streamPrefill calls states [] = (.ok [], states) := by
    simp [streamPrefill, still, pure, Except.pure]
  rw [prefillStreamed, stays] at ran
  grind

end Caches

/-! Calls that fail as they are told. -/

def failing (faults : Faults) : Calls Unit Cache Unit Unit where
  embed := fun chunk => if faults.embed chunk.pos then .error () else .ok ()
  layer := fun l cache input =>
    match cache.write input.1, faults.layer l input.1.pos with
    | none, _ => (.error (), cache)
    | some written, none => (.ok (), written)
    | some _, some n =>
      (.error (), { cache with tokens := cache.kept input.1.pos ++ input.1.tokens.take n })
  head := fun _ => .ok ()
  finalLogits := fun _ => if faults.finalLogits then .error () else .ok ()

lemma failing_obeys (faults : Faults) : Obeys faults (failing faults) where
  writes := by
    intro l cache chunk act out after ran
    simp only [failing] at ran
    grind
  embed := fun chunk => by cases fate : faults.embed chunk.pos <;> simp [failing, fate]
  fails := by
    intro l cache chunk act accepted
    obtain ⟨written, wrote⟩ := Option.ne_none_iff_exists'.mp accepted
    simp only [failing, wrote]
    cases faults.layer l chunk.pos <;> simp
  finalLogits := fun _ => by cases fate : faults.finalLogits <;> simp [failing, fate]

def calm : Faults := ⟨fun _ => false, fun _ _ => none, false⟩

/-- The second layer fails at the second token. -/
def secondFails : Faults :=
  { calm with layer := fun l pos => if l = 1 ∧ pos = 1 then some 0 else none }

end Joshua.Prefill
