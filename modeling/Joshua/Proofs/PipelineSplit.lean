/-
Module: Joshua.Proofs.PipelineSplit
Purpose: Layers are split into one nonempty range for each worker, whatever
  the comparisons of floating point numbers decide, and in a validated plan
  every block tensor belongs to exactly one stage.
Trusted boundary: none
-/
import Joshua.Model.Pipeline
import Joshua.Proofs.PartitionPlan

namespace Joshua.Pipeline
open Joshua.Foundation Joshua.Partition List

/-! ## Ends -/

section Ends
variable {F : Type} [Float64 F] {weights : List Nat} {layers count i : Nat}
  {totalWeight totalShare : F}

lemma weightAt_spec {place : Nat} (lt : place < weights.length) :
    Succeeds (fun _ : F => True) (weightAt weights place) := by
  rw [weightAt, getElem?_eq_getElem lt]
  exact ⟨_, rfl, trivial⟩

/-- The loop stops at the latest where it has to leave room. -/
lemma takeLayers_spec {target : F} (left : Nat) {stop : Nat} {filled : F}
    (lt : stop + left ≤ weights.length) :
    Succeeds (fun result => stop ≤ result.1 ∧ result.1 ≤ stop + left)
      (takeLayers weights target left stop filled) := by
  induction left generalizing stop filled with
  | zero => exact ⟨_, rfl, le_rfl, le_rfl⟩
  | succ left ih =>
    refine .bind (weightAt_spec (by omega)) ?_
    intro weight _
    split
    · refine (ih (by omega)).imp ?_
      intro result bounds
      omega
    · exact ⟨_, rfl, le_rfl, by omega⟩

/-- So many ends are placed, and there is a layer for each worker to come. -/
structure Splits (layers count index : Nat) (split : Splitting F) : Prop where
  ends : split.ends.length = index
  rising : split.ends.Pairwise (· < ·)
  within : ∀ stop ∈ split.ends, 0 < stop ∧ stop ≤ split.stop
  room : split.stop + (count - index) ≤ layers

variable {split : Splitting F}

lemma splitOne_spec (size : weights.length = layers) {worker : F}
    (splits : Splits layers count i split) (more : i + 1 < count) :
    Succeeds (Splits layers count (i + 1))
      (splitOne weights layers count totalWeight totalShare i split worker) := by
  have room := splits.room
  refine .bind (.plainSub (by omega)) ?_
  intro later later_eq
  refine .bind (.plainSub (by omega)) ?_
  intro last last_eq
  refine .bind (weightAt_spec (by omega)) ?_
  intro weight _
  refine .bind (takeLayers_spec _ (by omega)) ?_
  rintro ⟨stop, filled⟩ ⟨above, below⟩
  dsimp only at above below
  refine ⟨_, rfl, ?_⟩
  constructor
  · simp [splits.ends]
  · refine pairwise_append.mpr ⟨splits.rising, pairwise_singleton _ _, ?_⟩
    intro earlier inside j last
    obtain rfl := mem_singleton.mp last
    have := (splits.within earlier inside).2
    omega
  · refine forall_mem_append.mpr ⟨fun j earlier => ?_, forall_mem_singleton.mpr ⟨by omega, le_rfl⟩⟩
    have := splits.within j earlier
    dsimp only
    omega
  · dsimp only
    omega

lemma splitFrom_spec (size : weights.length = layers) {workers : List F}
    (splits : Splits layers count i split) (enough : i + workers.length + 1 = count) :
    Succeeds (Splits layers count (count - 1))
      (splitFrom weights layers count totalWeight totalShare i workers split) := by
  induction workers generalizing i split with
  | nil =>
    obtain rfl : i = count - 1 := by
      rw [length_nil] at enough
      omega
    exact ⟨split, rfl, splits⟩
  | cons worker rest ih =>
    rw [length_cons] at enough
    refine .bind (splitOne_spec size splits (by omega)) ?_
    intro next further
    exact ih further (by omega)

end Ends

lemma length_layerWeights (header : Gguf.Header) (layers : Nat) :
    (layerWeights header layers).length = layers := by
  rw [layerWeights]
  refine foldlRecOn (motive := fun weights : List Nat => weights.length = layers) _ _
    length_replicate ?_
  intro weights size tensor _
  split
  · rw [length_modify, size]
  · exact size

/-- One end for each worker, each above the one before, the last at the end. -/
structure EndsOf (layers count : Nat) (ends : List Nat) : Prop where
  length : ends.length = count
  rising : ends.Pairwise (· < ·)
  positive : ∀ stop ∈ ends, 1 ≤ stop
  last : ends.getLast? = some layers

variable {layers start : Nat}

lemma splitLayers_spec (F : Type) [Float64 F] (header : Gguf.Header) {capacities : List UInt64}
    (workers : 1 ≤ capacities.length) (few : capacities.length ≤ layers) :
    Succeeds (EndsOf layers capacities.length) (splitLayers F header layers capacities) := by
  refine .bind (.ensure (by simp [workers, few])) ?_
  rintro ⟨⟩ _
  dsimp only
  have start : Splits layers capacities.length 0 (⟨0, zero, zero, []⟩ : Splitting F) :=
    ⟨rfl, .nil, nofun, by simpa using few⟩
  refine .bind (splitFrom_spec (length_layerWeights header layers) start ?_) ?_
  · split <;> simp <;> omega
  · intro split splits
    have room := splits.room
    refine ⟨_, rfl, ?_⟩
    constructor
    · simp [splits.ends]
      omega
    · refine pairwise_append.mpr ⟨splits.rising, pairwise_singleton _ _, ?_⟩
      intro earlier inside j last
      obtain rfl := mem_singleton.mp last
      have := (splits.within earlier inside).2
      omega
    · exact forall_mem_append.mpr ⟨fun stop earlier => (splits.within stop earlier).1,
        forall_mem_singleton.mpr (by omega)⟩
    · simp

/-! ## Stages -/

/-- Stages that pass the loop are not empty, and each layer up to their end is
in exactly one of them. -/
lemma validateStages_covers {reached : Nat} {stages : List Stage}
    (valid : validateStages layers start stages = .ok reached) :
    (∀ stage ∈ stages, start ≤ stage.start ∧ stage.start < stage.stop) ∧
      ∀ layer, start ≤ layer → layer < reached → ∃! rank : Nat, ∃ stage : Stage,
        stages[rank]? = some stage ∧ stage.start ≤ layer ∧ layer < stage.stop := by
  induction stages generalizing start with
  | nil =>
    cases valid
    exact ⟨nofun, fun layer above below => by omega⟩
  | cons stage rest ih =>
    obtain ⟨_, joined, checked⟩ := bind_eq_ok.mp valid
    obtain ⟨_, _, later⟩ := bind_eq_ok.mp checked
    rw [ensure_eq_ok] at joined
    simp only [Bool.and_eq_true, decide_eq_true_eq] at joined
    obtain ⟨⟨rfl, filled⟩, _⟩ := joined
    obtain ⟨others, covered⟩ := ih later
    refine ⟨?_, fun layer above below => ?_⟩
    · refine forall_mem_cons.mpr ⟨⟨le_rfl, filled⟩, fun j later => ?_⟩
      have := others j later
      omega
    · by_cases here : layer < stage.stop
      · refine ⟨0, ⟨stage, rfl, above, here⟩, ?_⟩
        rintro (_ | rank) ⟨j, found, between⟩
        · rfl
        · have := others j (mem_of_getElem? found)
          omega
      · obtain ⟨rank, ⟨j, found, between⟩, only⟩ := covered layer (by omega) below
        refine ⟨rank + 1, ⟨j, found, between⟩, ?_⟩
        rintro (_ | place) ⟨another, there, inside⟩
        · cases there
          omega
        · rw [only place ⟨another, there, inside⟩]

lemma validateStages_of_validate {plan : Plan} (valid : plan.validate = .ok ()) :
    validateStages plan.layers 0 plan.stages = .ok plan.layers := by
  iterate 6 obtain ⟨_, _, valid⟩ := bind_eq_ok.mp valid
  obtain ⟨reached, stages, valid⟩ := bind_eq_ok.mp valid
  obtain ⟨_, whole, _⟩ := bind_eq_ok.mp valid
  rw [stages, of_decide_eq_true (ensure_eq_ok.mp whole)]

lemma validateStages_stagesOf {ends budgets : List Nat} (rising : (start :: ends).Pairwise (· < ·))
    (last : (start :: ends).getLast? = some layers) (each : budgets.length = ends.length)
    (pos : ∀ budget ∈ budgets, 0 < budget) :
    validateStages layers start (stagesOf start ends budgets) = .ok layers := by
  induction ends generalizing start budgets with
  | nil =>
    cases last
    rw [stagesOf]
    · rfl
    · nofun
  | cons stop ends ih =>
    obtain ⟨budget, budgets, rfl⟩ := exists_cons_of_length_eq_add_one each
    rw [getLast?_cons_cons] at last
    have below : stop ≤ layers := by
      rcases mem_cons.mp (mem_of_getLast? last) with rfl | later
      · exact le_rfl
      · exact le_of_lt (rel_of_pairwise_cons rising.of_cons later)
    have above := rel_of_pairwise_cons rising mem_cons_self
    obtain ⟨positive, others⟩ := forall_mem_cons.mp pos
    have rest := ih rising.of_cons last (Nat.succ.inj each) others
    simp [stagesOf, validateStages, ensure, above, below, positive, rest, bind, Except.bind]

/-! ## Names -/

lemma blockLayer_decimal {layer : Nat} (small : layer < u64Limit) (rest : Text) :
    blockLayer (blk ++ (Nat.toDigits 10 layer ++ '.' :: rest)) = some layer := by
  have digits : ∀ c ∈ Nat.toDigits 10 layer, c.isDigit = true := fun c inside =>
    Nat.isDigit_of_mem_toDigits (by decide) (by decide) inside
  have other {c : Char} (digit : c.isDigit = false) : c ∉ Nat.toDigits 10 layer := fun inside =>
    Bool.false_ne_true (digit.symm.trans (digits c inside))
  have number : (Nat.toDigits 10 layer ++ '.' :: rest).takeWhile (· ≠ '.') =
      Nat.toDigits 10 layer := by
    rw [takeWhile_append_of_pos]
    · simp
    · intro c inside
      exact decide_eq_true fun same => other (c := '.') (by decide) (same ▸ inside)
  have unsigned : (Nat.toDigits 10 layer).head? ≠ some '+' := fun plus =>
    other (by decide) (mem_of_mem_head? plus)
  rw [blockLayer, if_pos ( isPrefixOf_iff_prefix.mpr (prefix_append _ _)), drop_left, number,
    parseUsize, if_neg unsigned, if_pos]
  · rw [Nat.ofDigitChars_ten_toDigits]
  · simpa [Nat.ofDigitChars_ten_toDigits, small] using digits

/-- A tensor is among a stage's when the stage owns its name. -/
lemma mem_stageTensors {plan : Plan} {header : Gguf.Header} {rank : Nat} {name : Text} :
    name ∈ plan.stageTensors header rank ↔
      name ∈ header.tensors.map Prod.fst ∧ plan.owns header rank name = some true := by
  simp [Plan.stageTensors]

/-! ## The split -/

/-- For every header, layer count and capacities of one to `layers` workers,
and whatever floating point numbers do: the split succeeds with one end for
each worker, rising from one or more to the layer count. These ends pass the
plan's check of its stages, and in a plan with these ends that is validated
every stage has a layer and every block tensor `blk.<l>.*` of a layer below
the count is a tensor of exactly one stage. -/
theorem splitLayers_partitions (F : Type) [Float64 F] (header : Gguf.Header) {layers : Nat}
    {capacities : List UInt64} (workers : 1 ≤ capacities.length)
    (few : capacities.length ≤ layers) :
    (∀ layer < u64Limit, ∀ rest,
      blockLayer (blk ++ (Nat.toDigits 10 layer ++ '.' :: rest)) = .some layer) ∧
    ∃ ends, splitLayers F header layers capacities = .ok ends ∧
      EndsOf layers capacities.length ends ∧
      (∀ budgets, budgets.length = ends.length → (∀ budget ∈ budgets, 0 < budget) →
        validateStages layers 0 (stagesOf 0 ends budgets) = .ok layers) ∧
      ∀ (plan : Plan) (budgets : List Nat), plan.layers = layers →
        plan.stages = stagesOf 0 ends budgets → plan.validate = .ok () →
        (∀ stage ∈ plan.stages, stage.start < stage.stop) ∧
        ∀ name ∈ header.tensors.map Prod.fst, ∀ layer, blockLayer name = .some layer →
          layer < layers → ∃! rank, name ∈ plan.stageTensors header rank := by
  obtain ⟨ends, split, endsOf⟩ := splitLayers_spec F header workers few
  refine ⟨fun layer small rest => blockLayer_decimal small rest, ends, split, endsOf, ?_, ?_⟩
  · intro budgets each positive
    refine validateStages_stagesOf (pairwise_cons.mpr ⟨endsOf.positive, endsOf.rising⟩) ?_ each
      positive
    rw [getLast?_cons, endsOf.last]
    rfl
  · rintro plan budgets rfl _ valid
    obtain ⟨nonempty, covered⟩ := validateStages_covers (validateStages_of_validate valid)
    refine ⟨fun stage inside => (nonempty stage inside).2, ?_⟩
    intro name inside layer named below
    have block : blk.isPrefixOf name = true := by
      by_contra other
      rw [blockLayer, if_neg other] at named
      cases named
    have owned (rank : Nat) : name ∈ plan.stageTensors header rank ↔ ∃ stage : Stage,
        plan.stages[rank]? = .some stage ∧ stage.start ≤ layer ∧ layer < stage.stop := by
      rw [mem_stageTensors, Plan.owns, Option.map_eq_some_iff]
      simp [inside, block, named]
    simp only [owned]
    exact covered layer (Nat.zero_le _) below

/-- A block tensor for each of two layers. -/
def twoBlocks : Gguf.Header where
  version := 3
  metadata := []
  tensors :=
    [("blk.0.w".toList, { dtype := 0, dims := [2], offset := 0 }),
      ("blk.1.w".toList, { dtype := 0, dims := [4], offset := 32 })]
  tensorDataOffset := 128

def twoStages : Plan where
  version := 1
  modelSha256 := "0000000000000000000000000000000000000000000000000000000000000000"
  layers := 2
  hidden := 2
  vocab := 4
  limits := ⟨8, 4, 1, 1, 1, 1000, 2 ^ 20⟩
  stages := stagesOf 0 [1, 2] [1, 1]

/-- Two layers for two workers: each stage has the tensor of its layer, and
no other stage has it. -/
theorem splitLayers_partitions_of_two :
    splitLayers Exact twoBlocks 2 [5, 7] = .ok [1, 2] ∧ twoStages.validate = .ok () ∧
    "blk.0.w".toList ∈ twoStages.stageTensors twoBlocks 0 ∧
    "blk.1.w".toList ∈ twoStages.stageTensors twoBlocks 1 ∧
    ∀ name ∈ ["blk.0.w".toList, "blk.1.w".toList],
      ∃! rank, name ∈ twoStages.stageTensors twoBlocks rank := by
  obtain ⟨ends, split, endsOf, _, owned⟩ :=
    (@splitLayers_partitions Exact _ twoBlocks 2 [5, 7] (by decide) (by decide)).2
  have valid : twoStages.validate = .ok () := by decide +kernel
  obtain ⟨first, last, rfl⟩ := length_eq_two.mp endsOf.length
  have stop : last = 2 := by simpa using endsOf.last
  have below : first < last := (pairwise_pair.mp endsOf.rising)
  have positive : 1 ≤ first := endsOf.positive first (mem_cons_self ..)
  obtain rfl : first = 1 := by omega
  subst stop
  refine ⟨split, valid, mem_stageTensors.mpr ⟨by decide, rfl⟩,
    mem_stageTensors.mpr ⟨by decide, rfl⟩, ?_⟩
  intro name inside
  have unique := (owned twoStages [1, 1] rfl rfl valid).2 name inside
  rcases mem_pair.mp inside with rfl | rfl
  · exact unique 0 rfl (by decide)
  · exact unique 1 rfl (by decide)

end Joshua.Pipeline
