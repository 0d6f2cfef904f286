/-
Module: Joshua.Proofs.PartitionPlan
Purpose: Water filling assigns exactly the blocks it was given, within the
  caps and without arithmetic that does not fit, whatever the scores are. A
  plan cuts every tensor completely into one shard for each node, the bytes it
  reports are those of the shards, and no node is asked for more than it has.
Trusted boundary: none
-/
import Joshua.Model.Partition
import Mathlib.Algebra.BigOperators.Fin
import Mathlib.Algebra.Order.BigOperators.Group.Finset
import Mathlib.Algebra.Order.Ring.Unbundled.Rat

namespace Joshua.Partition
open Joshua.Foundation List

variable {F : Type} {ranks : Nat} {caps : Fin ranks → Nat} {scores : Fin ranks → F}

section
variable [Float64 F]

/-- The ranks are within their caps, and what they have and what is left is
the goal. -/
structure Filled (caps : Fin ranks → Nat) (goal : Nat) (level : Level ranks) : Prop where
  within : ∀ rank, level.assigned rank ≤ caps rank
  whole : ∑ rank, level.assigned rank + level.remaining = goal

lemma sum_update_add (values : Fin ranks → Nat) (rank : Fin ranks) (count : Nat) :
    ∑ j, Function.update values rank (values rank + count) j = ∑ j, values j + count := by
  have mem := Finset.mem_univ rank
  rw [Finset.sum_update_of_mem mem, ← Finset.sum_erase_add _ _ mem, Finset.sdiff_singleton_eq_erase]
  omega

/-- Nothing was given out, or there is less to give out. -/
def Lowers (level after : Level ranks) : Prop :=
  after = level ∨ after.remaining < level.remaining

lemma Lowers.trans {level middle after : Level ranks} (first : Lowers level middle)
    (second : Lowers middle after) : Lowers level after := by
  rcases second with rfl | less
  · exact first
  · rcases first with rfl | before
    · exact .inr less
    · exact .inr (less.trans before)

section Fill
variable {goal : Nat} {level : Level ranks} (small : ∀ rank, caps rank < u64Limit)
include small

lemma Level.give_spec {rank : Fin ranks} {count : Nat} (filled : Filled caps goal level)
    (enough : count ≤ level.remaining) (room : level.assigned rank + count ≤ caps rank) :
    Succeeds (fun after => Filled caps goal after ∧ Lowers level after ∧
        after.remaining + count = level.remaining)
      (level.give rank count) := by
  refine .bind (.plainAdd (lt_of_le_of_lt room (small rank))) ?_
  rintro more rfl
  refine .bind (.plainSub enough) ?_
  intro remaining left
  refine ⟨_, rfl, ⟨?_, ?_⟩, ?_, left⟩
  · exact (Function.forall_update_iff level.assigned fun j count => count ≤ caps j).mpr
      ⟨room, fun j _ => filled.within j⟩
  · have whole := filled.whole
    show ∑ j, Function.update level.assigned rank _ j + remaining = goal
    rw [sum_update_add]
    omega
  · cases count with
    | zero =>
      left
      obtain rfl : remaining = level.remaining := left
      rw [add_zero, Function.update_eq_self]
    | succ count =>
      right
      show remaining < level.remaining
      omega

lemma saturate_spec (rank : Fin ranks) (filled : Filled caps goal level) :
    Succeeds (fun after => Filled caps goal after ∧ Lowers level after ∧ after.remaining +
            min (caps rank - level.assigned rank) level.remaining =
          level.remaining)
      (saturate caps level rank) := by
  have within := filled.within rank
  refine .bind (.plainSub within) ?_
  intro room total
  have same : caps rank - level.assigned rank = room := by omega
  rw [same]
  exact Level.give_spec small filled (min_le_right _ _) (by omega)

lemma giveWhole_spec (share : Fin ranks × F) (filled : Filled caps goal level) :
    Succeeds (fun after => Filled caps goal after ∧ Lowers level after)
      (giveWhole caps level share) := by
  have within := filled.within share.1
  refine .bind (.plainSub within) ?_
  intro room total
  refine (Level.give_spec small filled (min_le_right _ _) ?_).imp ?_
  · omega
  · exact fun after facts => ⟨facts.1, facts.2.1⟩

omit [Float64 F] in
/-- A rank with room gets one block while there are any. -/
lemma giveOne_spec (share : Fin ranks × F) (filled : Filled caps goal level) :
    Succeeds (fun after => Filled caps goal after ∧ Lowers level after ∧
        (0 < level.remaining → level.assigned share.1 < caps share.1 →
          after.remaining < level.remaining))
      (giveOne caps level share) := by
  rw [giveOne]
  split
  next open_ =>
    simp only [Bool.and_eq_true, decide_eq_true_eq] at open_
    refine (Level.give_spec small filled open_.1 open_.2).imp ?_
    exact fun after facts => ⟨facts.1, facts.2.1, by omega⟩
  next closed =>
    simp only [Bool.and_eq_true, decide_eq_true_eq] at closed
    exact ⟨level, rfl, filled, .inl rfl, fun left room => absurd ⟨left, room⟩ closed⟩

omit small in
lemma mem_shares {share : Fin ranks × F} (mem : share ∈ shares caps scores level) :
    level.assigned share.1 < caps share.1 := by
  obtain ⟨rank, inside, rfl⟩ := mem_map.mp mem
  have kept := of_mem_filter inside
  simpa using kept

omit small in
/-- While blocks are left that fit, some rank can take one. -/
lemma active_ne_nil (room : goal ≤ ∑ rank, caps rank) (filled : Filled caps goal level)
    (left : 0 < level.remaining) : active caps level ≠ [] := by
  intro empty
  have full : ∀ rank, caps rank ≤ level.assigned rank := by simpa [active] using empty
  have most := Finset.sum_le_sum fun rank (_ : rank ∈ Finset.univ) => full rank
  have whole := filled.whole
  omega

omit [Float64 F] in
/-- The single blocks lower what is left, if the whole ones did not. -/
lemma foldlM_giveOne_spec {whole : Level ranks} {order : List (Fin ranks × F)}
    (full : order ≠ []) (open_ : ∀ share ∈ order, level.assigned share.1 < caps share.1)
    (filled : Filled caps goal whole) (lowers : Lowers level whole) (left : 0 < level.remaining) :
    Succeeds (fun after => Filled caps goal after ∧ after.remaining < level.remaining)
      (order.foldlM (giveOne caps) whole) := by
  cases order with
  | nil => exact absurd rfl full
  | cons share rest =>
    rw [foldlM_cons]
    refine .bind (giveOne_spec small share filled) ?_
    rintro next ⟨holds, lower, taken⟩
    have less : next.remaining < level.remaining := by
      rcases lowers with rfl | less
      · exact taken left (open_ share mem_cons_self)
      · rcases lower with rfl | lesser
        · exact less
        · exact lesser.trans less
    refine .foldlM ⟨holds, less⟩ ?_
    rintro j _ cur ⟨kept, below⟩
    refine (giveOne_spec small j kept).imp ?_
    rintro after ⟨done, rfl | further, _⟩
    · exact ⟨done, below⟩
    · exact ⟨done, further.trans below⟩

section
variable (room : goal ≤ ∑ rank, caps rank) (scores : Fin ranks → F)
include room

/-- A round keeps the level filled and lowers what is left. -/
lemma fillRound_spec (filled : Filled caps goal level) (left : 0 < level.remaining) :
    Succeeds (fun after => Filled caps goal after ∧ after.remaining < level.remaining)
      (fillRound caps scores level) := by
  have full := active_ne_nil room filled left
  refine .bind (.ensure (by simpa using full)) ?_
  intro _ _
  have subtractions : ∀ share ∈ shares caps scores level, Succeeds (fun _ => True) (do
        let room ← plainSub (caps share.1) (level.assigned share.1)
        return Float64.le (Float64.ofNat room) share.2) := fun share mem =>
    .bind (.plainSub (le_of_lt (mem_shares mem))) fun _ _ => ⟨_, rfl, trivial⟩
  refine .bind (.filterGuarded subtractions) ?_
  intro saturated members
  split
  next reached =>
    -- the first saturated rank takes at least one block
    cases saturated with
    | nil => simp at reached
    | cons share rest =>
      have open_ := mem_shares (members share mem_cons_self)
      rw [map_cons, foldlM_cons]
      refine .bind (saturate_spec small share.1 filled) ?_
      rintro next ⟨holds, _, taken⟩
      refine .foldlM ⟨holds, by omega⟩ ?_
      rintro rank _ cur ⟨kept, below⟩
      refine (saturate_spec small rank kept).imp ?_
      exact fun after facts => ⟨facts.1, by omega⟩
  next =>
    refine .bind (.foldlM (I := fun after =>
      Filled caps goal after ∧ Lowers level after) ⟨filled, .inl rfl⟩ ?_) ?_
    · rintro share _ cur ⟨kept, lowers⟩
      exact (giveWhole_spec small share kept).imp fun after facts => ⟨facts.1, lowers.trans facts.2⟩
    · rintro whole ⟨holds, lowers⟩
      have order := mergeSort_perm (shares caps scores level) fractionOrder
      refine .bind (foldlM_giveOne_spec small ?_ (fun share mem =>
        mem_shares (order.mem_iff.mp mem)) holds lowers left) ?_
      · intro empty
        rw [empty] at order
        exact full (by simpa [shares] using order.symm.eq_nil)
      · rintro after ⟨done, less⟩
        refine .bind (.ensure (by simp; omega)) ?_
        exact fun _ _ => ⟨after, rfl, done, less⟩

lemma fillLoop_spec {fuel : Nat} (enough : level.remaining < fuel)
    (filled : Filled caps goal level) :
    Succeeds (fun after => Filled caps goal after ∧ after.remaining = 0)
      (fillLoop caps scores fuel level) := by
  induction fuel generalizing level with
  | zero => exact absurd enough (Nat.not_lt_zero _)
  | succ fuel ih =>
    rw [fillLoop]
    split
    next done => exact ⟨level, rfl, filled, done⟩
    next more =>
      refine .bind (fillRound_spec small room scores filled (Nat.pos_of_ne_zero more)) ?_
      rintro next ⟨holds, less⟩
      exact ih (by omega) holds

lemma fillLoop_places : Succeeds (fun after => (∀ rank, after.assigned rank ≤ caps rank) ∧
        ∑ rank, after.assigned rank = goal)
      (fillLoop caps scores (goal + 1) ⟨fun _ => 0, goal⟩) := by
  have start : Filled caps goal ⟨fun _ => 0, goal⟩ := ⟨fun _ => Nat.zero_le _, by simp⟩
  refine (fillLoop_spec small room scores (Nat.lt_succ_self _) start).imp ?_
  rintro level ⟨filled, done⟩
  have whole := filled.whole
  exact ⟨filled.within, by omega⟩

end

end Fill

/-- A checked sum over all ranks is their sum if that fits, and is refused
otherwise. -/
lemma checkedSum_eq (values : Fin ranks → Nat) (msg : String) : (List.finRange ranks).foldlM
        (fun sum rank => checkedAdd sum (values rank) msg) 0 =
      if ∑ rank, values rank < u64Limit then .ok (∑ rank, values rank)
      else .error (.refused msg) := by
  suffices general : ∀ (items : List (Fin ranks)) (start : Nat), start < u64Limit →
      items.foldlM (fun sum rank => checkedAdd sum (values rank) msg) start =
        if start + (items.map values).sum < u64Limit then
          .ok (start + (items.map values).sum)
        else .error (.refused msg) by
    rw [general _ 0 (by decide), zero_add, Fin.sum_univ_def]
  intro items
  induction items with
  | nil =>
    intro start fits
    simp [fits]
    rfl
  | cons rank rest ih =>
    intro start fits
    rw [foldlM_cons, checkedAdd, map_cons, sum_cons, ← add_assoc]
    split
    next small => exact ih _ small
    next large =>
      rw [if_neg (by omega)]
      rfl

section
variable {amount : Nat} (fits : ∑ rank, caps rank < u64Limit)
include fits

/-- Blocks that fit are all assigned and no rank gets more than its cap. -/
lemma waterFill_succeeds (room : amount ≤ ∑ rank, caps rank) (scores : Fin ranks → F) :
    Succeeds (fun extras => (∀ rank, extras rank ≤ caps rank) ∧ ∑ rank, extras rank = amount)
      (waterFill caps scores amount) := by
  have small : ∀ rank, caps rank < u64Limit := fun rank =>
    lt_of_le_of_lt (Finset.single_le_sum (fun _ _ => Nat.zero_le _) (Finset.mem_univ rank)) fits
  rw [waterFill, checkedSum_eq, if_pos fits]
  refine .bind ⟨_, rfl, rfl⟩ ?_
  rintro capacity rfl
  refine .bind (.ensure (decide_eq_true room)) ?_
  intro _ _
  refine .bind (fillLoop_places small room scores) ?_
  exact fun level placed => ⟨level.assigned, rfl, placed⟩

lemma waterFill_refuses (much : ∑ rank, caps rank < amount) (scores : Fin ranks → F) :
    waterFill caps scores amount = .error (.refused
      "insufficient whole-block memory after reserving all tensor minima") := by
  rw [waterFill, checkedSum_eq, if_pos fits]
  show (ensure (decide (amount ≤ ∑ rank, caps rank)) _).bind _ = _
  rw [ensure, decide_eq_false (by omega)]
  rfl

end

/-- Whatever the shares are: `water_fill` ends, and it places all blocks within
the caps exactly when they fit in all caps together. -/
theorem waterFill_places_iff (caps : Fin ranks → Nat) (fits : ∑ rank, caps rank < u64Limit)
    (scores : Fin ranks → F) (amount : Nat) :
    (amount ≤ ∑ rank, caps rank ↔ ∃ extras, waterFill caps scores amount = .ok extras) ∧
    (∀ extras, waterFill caps scores amount = .ok extras →
      (∀ rank, extras rank ≤ caps rank) ∧ ∑ rank, extras rank = amount) ∧
    ∀ fault, waterFill caps scores amount ≠ .error (.panic fault) := by
  rcases lt_or_ge (∑ rank, caps rank) amount with much | room
  · simp [waterFill_refuses fits much scores, much]
  · obtain ⟨extras, returned, placed⟩ := waterFill_succeeds fits room scores
    simpa [returned, room] using placed

/-- Rational numbers and both infinities, without rounding. -/
def Exact : Type :=
  WithBot (WithTop Rat)
deriving LinearOrder

namespace Exact

@[match_pattern]
def negInfinity : Exact := none

@[match_pattern]
def rational (value : Rat) : Exact := some (some value)

@[match_pattern]
def infinity : Exact := some none

/-- An operation on rational numbers. -/
def both (operation : Rat → Rat → Rat) : Exact → Exact → Exact
  | rational left, rational right => rational (operation left right)
  | rational _, right => right
  | left, _ => left

def neg : Exact → Exact
  | negInfinity => infinity
  | rational value => rational (-value)
  | infinity => negInfinity

end Exact

/-- Where nothing is rounded and the nodes have equal scores, so that their
logarithms cancel, the results are those of `f64`. -/
instance exactFloat : Float64 Exact where
  ratio top bottom := .rational (top / bottom)
  infinity := .infinity
  negInfinity := .negInfinity
  minPositive := .rational (1 / 2 ^ 1022)
  add := .both (· + ·)
  sub left right := .both (· + ·) left right.neg
  mul := .both (· * ·)
  div := .both (· / ·)
  max := max
  min := min
  ln
    | .rational value => if value = 0 then .negInfinity else .rational (value - 1)
    | value => value
  exp
    | .negInfinity => .rational 0
    | .rational value => .rational (value + 1)
    | .infinity => .infinity
  fract
    | .rational value => .rational (value - value.floor)
    | value => value
  ofNat value := .rational value
  floorU64
    | .rational value => value.floor.toNat
    | _ => 0
  isFinite
    | .rational _ => true
    | _ => false
  lt left right := left < right
  le left right := left ≤ right
  totalCmp := compare

/-- Four blocks for two ranks that can take two and three. -/
theorem waterFill_places_iff_of_two :
    ∃ extras, waterFill ![2, 3] (fun _ => Exact.rational 1) 4 = .ok extras :=
  (waterFill_places_iff ![2, 3] (by decide) _ 4).1.mp (by decide)

/-- All blocks are assigned and no rank gets more than its cap. -/
lemma waterFill_spec (caps : Fin ranks → Nat) (scores : Fin ranks → F) (remaining : Nat) :
    Returns (fun extras => (∀ rank, extras rank ≤ caps rank) ∧ ∑ rank, extras rank = remaining)
      (waterFill caps scores remaining) := by
  by_cases fits : ∑ rank, caps rank < u64Limit
  · rcases lt_or_ge (∑ rank, caps rank) remaining with much | room
    · rw [waterFill_refuses fits much scores]
      trivial
    · exact (waterFill_succeeds fits room scores).returns
  · rw [waterFill, checkedSum_eq, if_neg fits]
    trivial

end

open Function (update update_self update_of_ne)

variable [Float64 F]

/-! ## Shards of one tensor -/

/-- A shard holds the blocks from `start` up to `stop`, which are some. -/
structure ShardAt (tensor : TensorWorkload) (shard : RankShard) (start stop : Nat) : Prop where
  nonempty : start < stop
  blocks : shard.inputBlocks = ⟨start, stop⟩
  columns : shard.inputColumns = ⟨start * tensor.columnsPerBlock.toNat,
      stop * tensor.columnsPerBlock.toNat⟩
  bytes : shard.bytes = (stop - start) * tensor.bytesPerInputBlock.toNat

/-- Shards that follow each other from `start` to `stop`. -/
inductive Covers (tensor : TensorWorkload) : Nat → List RankShard → Nat → Prop
  | nil (start : Nat) : Covers tensor start [] start
  | cons {shard : RankShard} {rest : List RankShard}
      {start middle stop : Nat} (first : ShardAt tensor shard start middle)
      (later : Covers tensor middle rest stop) :
      Covers tensor start (shard :: rest) stop

variable {tensor : TensorWorkload} {nodes : Fin ranks → NodeCapacity F}

lemma Covers.snoc {start middle stop : Nat} {shards : List RankShard} {shard : RankShard}
    (covers : Covers tensor start shards middle) (last : ShardAt tensor shard middle stop) :
    Covers tensor start (shards ++ [shard]) stop := by
  induction covers with
  | nil => exact .cons last (.nil _)
  | cons first _ ih => exact .cons first (ih last)

/-- The bytes of the shards of a rank. -/
def shardBytes (shards : List RankShard) (rank : Nat) : Nat :=
  ((shards.filter fun shard => shard.rank = rank).map RankShard.bytes).sum

lemma shardBytes_append (first second : List RankShard) (rank : Nat) :
    shardBytes (first ++ second) rank = shardBytes first rank + shardBytes second rank := by
  rw [shardBytes, filter_append, map_append, sum_append]
  rfl

lemma shardBytes_singleton (shard : RankShard) (rank : Nat) :
    shardBytes [shard] rank = if shard.rank = rank then shard.bytes else 0 := by
  rw [shardBytes, filter_singleton]
  split <;> simp_all

/-- What the planner has checked about a tensor. -/
structure ValidTensor (ranks : Nat) (tensor : TensorWorkload) : Prop where
  stored : 0 < tensor.bytesPerInputBlock.toNat
  columns : tensor.inputBlocks.toNat * tensor.columnsPerBlock.toNat < u64Limit
  enough : ranks ≤ tensor.inputBlocks.toNat

/-- The extra blocks of every rank use up the tensor and fit the budgets. -/
structure Fits (tensor : TensorWorkload) (budget extras : Fin ranks → Nat) : Prop where
  room : ∀ rank, extras rank * tensor.bytesPerInputBlock.toNat ≤ budget rank
  small : ∀ rank, budget rank < u64Limit
  whole : ((List.finRange ranks).map fun rank => extras rank + 1).sum = tensor.inputBlocks.toNat

/-- The shards of the ranks in `done` have been cut. -/
structure Cut (nodes : Fin ranks → NodeCapacity F) (tensor : TensorWorkload)
    (budget extras : Fin ranks → Nat) (done : List (Fin ranks))
    (cutting : Cutting ranks) : Prop where
  start : cutting.start = (done.map fun rank => extras rank + 1).sum
  covers : Covers tensor 0 cutting.shards cutting.start
  owners : cutting.shards.map (fun shard => (shard.rank, shard.nodeId)) =
    done.map fun rank => (rank.val, (nodes rank).id)
  untouched : ∀ rank, rank ∉ done → cutting.budget rank = budget rank
  fewer : ∀ rank, cutting.budget rank ≤ budget rank
  bytes : ∀ rank : Fin ranks, shardBytes cutting.shards rank + cutting.budget rank = budget rank +
      if rank ∈ done then tensor.bytesPerInputBlock.toNat else 0

variable {budget : Fin ranks → Nat} {rank : Fin ranks}
omit [Float64 F] in
lemma cutShard_spec {extras : Fin ranks → Nat} {done rest : List (Fin ranks)}
    {cutting : Cutting ranks} (valid : ValidTensor ranks tensor) (fits : Fits tensor budget extras)
    (pos : List.finRange ranks = done ++ rank :: rest)
    (cut : Cut nodes tensor budget extras done cutting) :
    Returns (Cut nodes tensor budget extras (done ++ [rank]))
      (cutShard nodes tensor extras cutting rank) := by
  have fresh : rank ∉ done := by
    have nodup := List.nodup_finRange ranks
    rw [pos] at nodup
    exact fun inside => (List.nodup_append.mp nodup).2.2 rank inside rank mem_cons_self rfl
  -- the blocks up to this shard are among the tensor's
  have inside : cutting.start + (extras rank + 1) ≤ tensor.inputBlocks.toNat := by
    have whole := fits.whole
    rw [pos, map_append, map_cons, sum_append, sum_cons] at whole
    have start := cut.start
    omega
  have blocks : tensor.inputBlocks.toNat < u64Limit := tensor.inputBlocks.toNat_lt
  have columnsFit : ∀ {block : Nat}, block ≤ tensor.inputBlocks.toNat →
      block * tensor.columnsPerBlock.toNat < u64Limit := fun less =>
    lt_of_le_of_lt (Nat.mul_le_mul_right _ less) valid.columns
  have room := fits.room rank
  refine .bind (.plainAdd (by omega)) ?_
  rintro count rfl
  refine .bind .checkedAdd ?_
  rintro stop ⟨rfl, _⟩
  refine .bind .checkedMul ?_
  rintro bytes ⟨rfl, _⟩
  refine .bind (.plainMul (lt_of_le_of_lt room (fits.small rank))) ?_
  rintro extra rfl
  refine .bind .checkedSub ?_
  intro left spent
  refine .bind (.plainMul (columnsFit (by omega))) ?_
  rintro firstColumn rfl
  refine .bind (.plainMul (columnsFit inside)) ?_
  rintro lastColumn rfl
  have shard : ShardAt tensor
      { rank := rank
        nodeId := (nodes rank).id
        inputBlocks := ⟨cutting.start, cutting.start + (extras rank + 1)⟩
        inputColumns :=
          ⟨cutting.start * tensor.columnsPerBlock.toNat,
            (cutting.start + (extras rank + 1)) * tensor.columnsPerBlock.toNat⟩
        bytes := (extras rank + 1) * tensor.bytesPerInputBlock.toNat }
      cutting.start (cutting.start + (extras rank + 1)) :=
    ⟨by omega, rfl, rfl, by rw [Nat.add_sub_cancel_left]⟩
  constructor
  · show cutting.start + (extras rank + 1) = _
    rw [map_append, sum_append, cut.start]
    simp
  · exact cut.covers.snoc shard
  · show List.map _ (cutting.shards ++ [_]) = _
    rw [map_append, cut.owners, map_append]
    rfl
  · intro j outside
    have different : j ≠ rank := fun same => outside (same ▸ mem_append_right _ mem_cons_self)
    show update cutting.budget rank left j = _
    rw [update_of_ne different]
    exact cut.untouched j fun earlier => outside (mem_append_left _ earlier)
  · have untouched := cut.untouched rank fresh
    exact (Function.forall_update_iff cutting.budget fun j left => left ≤ budget j).mpr
      ⟨by omega, fun j _ => cut.fewer j⟩
  · intro j
    have before := cut.bytes j
    show shardBytes (cutting.shards ++ [_]) j + update cutting.budget rank left j = _
    rw [shardBytes_append, shardBytes_singleton]
    by_cases same : j = rank
    · subst same
      rw [if_neg fresh] at before
      have size := Nat.succ_mul (extras j) tensor.bytesPerInputBlock.toNat
      rw [update_self, if_pos rfl, if_pos (by simp)]
      show shardBytes cutting.shards j +
        (extras j).succ * tensor.bytesPerInputBlock.toNat + left = _
      omega
    · have outside : j ∈ done ++ [rank] ↔ j ∈ done := by
        simp [same]
      rw [update_of_ne same, if_neg fun equal => same (Fin.ext equal.symm)]
      simp only [outside]
      exact before

/-! ## All tensors -/

/-- A partition gives each node its shard of all the tensor's blocks. -/
structure PartitionOf (nodes : Fin ranks → NodeCapacity F)
    (tensor : TensorWorkload) (partition : TensorPartition) : Prop where
  id : partition.tensorId = tensor.id
  covers : Covers tensor 0 partition.shards tensor.inputBlocks.toNat
  owners : partition.shards.map (fun shard => (shard.rank, shard.nodeId)) =
    (List.finRange ranks).map fun rank => (rank.val, (nodes rank).id)

/-- The bytes a rank has in partitions. -/
def plannedBytes (partitions : List TensorPartition) (rank : Nat) : Nat :=
  (partitions.map fun partition => shardBytes partition.shards rank).sum

/-- The tensors in `done` have been planned with the budgets of `initial`. -/
structure Planned (nodes : Fin ranks → NodeCapacity F) (initial : Fin ranks → Nat)
    (done : List TensorWorkload) (planning : Planning ranks) : Prop where
  each : List.Forall₂ (PartitionOf nodes) done planning.planned
  bytes : ∀ rank : Fin ranks,
    plannedBytes planning.planned rank + planning.budget rank = initial rank +
        (done.map fun tensor => tensor.bytesPerInputBlock.toNat).sum
  small : ∀ rank, planning.budget rank < u64Limit

lemma sum_finRange_succ (extras : Fin ranks → Nat) :
    ((List.finRange ranks).map fun rank => extras rank + 1).sum = ∑ rank, extras rank + ranks := by
  rw [← Fin.sum_univ_def, Finset.sum_add_distrib]
  simp

variable {done : List TensorWorkload}

lemma planTensor_spec {initial : Fin ranks → Nat} {planning : Planning ranks}
    (valid : ValidTensor ranks tensor) (planned : Planned nodes initial done planning) :
    Returns (Planned nodes initial (done ++ [tensor]))
      (planTensor nodes scores planning tensor) := by
  refine .bind (.plainSub valid.enough) ?_
  intro blocks split
  refine .bind (waterFill_spec _ scores blocks) ?_
  rintro extras ⟨capped, total⟩
  have fits : Fits tensor planning.budget extras := by
    refine ⟨fun rank => ?_, planned.small, ?_⟩
    · exact (Nat.mul_le_mul_right _ (capped rank)).trans (Nat.div_mul_le_self _ _)
    · rw [sum_finRange_succ]
      omega
  refine .bind (Returns.foldlM (I := Cut nodes tensor planning.budget extras) ?_
    fun _ _ _ _ pos cut => cutShard_spec valid fits pos cut) ?_
  · exact ⟨rfl, .nil 0, rfl, fun _ _ => rfl, fun _ => le_rfl, fun _ => by simp [shardBytes]⟩
  · intro cutting cut
    refine .bind .ensure ?_
    rintro ⟨⟩ complete
    have reached : cutting.start = tensor.inputBlocks.toNat := by simpa using complete
    refine ⟨?_, fun rank => ?_, fun rank => ?_⟩
    · refine rel_append planned.each (.cons ?_ .nil)
      exact ⟨rfl, reached ▸ cut.covers, cut.owners⟩
    · have before := planned.bytes rank
      have now := cut.bytes rank
      rw [if_pos (mem_finRange rank)] at now
      show plannedBytes (planning.planned ++ [_]) rank + cutting.budget rank = _
      rw [plannedBytes, map_append, sum_append, ← plannedBytes, map_append, sum_append]
      simp only [map_cons, map_nil, sum_cons, sum_nil]
      omega
    · exact lt_of_le_of_lt (cut.fewer rank) (planned.small rank)

/-! ## What the checks have established -/

lemma validate_spec (tensor : TensorWorkload) :
    Returns (fun _ => 0 < tensor.bytesPerInputBlock.toNat ∧
        tensor.inputBlocks.toNat * tensor.columnsPerBlock.toNat < u64Limit)
      tensor.validate := by
  refine .bind .ensure ?_
  rintro ⟨⟩ _
  refine .bind .ensure ?_
  rintro ⟨⟩ pos
  simp only [Bool.and_eq_true, decide_eq_true_eq] at pos
  refine .bind .checkedMul ?_
  rintro columns ⟨_, fits⟩
  refine .bind .checkedMul ?_
  rintro storage _
  exact ⟨pos.2, fits⟩

/-- What is known of the tensors seen so far. -/
structure Demanded (ranks : Nat) (done : List TensorWorkload) (demand : Demand) : Prop where
  valid : ∀ tensor ∈ done, ValidTensor ranks tensor
  minimum : demand.minimum = (done.map fun tensor => tensor.bytesPerInputBlock.toNat).sum

lemma addDemand_spec {demand : Demand} (demanded : Demanded ranks done demand) :
    Returns (Demanded ranks (done ++ [tensor])) (addDemand ranks demand tensor) := by
  refine .bind (validate_spec tensor) ?_
  rintro ⟨⟩ ⟨stored, columns⟩
  refine .bind .ensure ?_
  rintro ⟨⟩ _
  refine .bind .ensure ?_
  rintro ⟨⟩ enough
  refine .bind .checkedAdd ?_
  rintro minimum ⟨rfl, _⟩
  refine .bind .checkedMul ?_
  rintro storage _
  refine .bind .checkedAdd ?_
  rintro required _
  refine ⟨forall_mem_append.mpr ⟨demanded.valid, forall_mem_singleton.mpr ?_⟩, ?_⟩
  · exact ⟨stored, columns, by simpa using enough⟩
  · show demand.minimum + tensor.bytesPerInputBlock.toNat = _
    rw [demanded.minimum, map_append, sum_append]
    simp

lemma nodeBudget_spec (nodes : Fin ranks → NodeCapacity F) (rank : Fin ranks) :
    Returns (fun budget => budget + (nodes rank).reservedBytes.toNat =
        (nodes rank).availableBytes.toNat)
      (nodeBudget nodes rank) := by
  refine .bind .ensure ?_
  rintro ⟨⟩ _
  refine .bind .ensure ?_
  rintro ⟨⟩ _
  refine .bind .ensure ?_
  rintro ⟨⟩ _
  exact .checkedSub

lemma validateLinkValues_spec (link : LinkObservation F) :
    Returns (fun _ => True) (validateLinkValues link) :=
  .bind .ensure fun _ _ => Returns.ensure.imp fun _ _ => trivial

section
variable (nodes : Fin ranks → NodeCapacity F)

lemma addLink_spec (known : LinkPenalties F ranks) (link : LinkObservation F) :
    Returns (fun _ => True) (addLink nodes known link) := by
  rw [addLink]
  split
  next =>
    split
    next =>
      refine .bind .ensure ?_
      rintro ⟨⟩ _
      refine .bind .ensure ?_
      rintro ⟨⟩ _
      exact .bind (validateLinkValues_spec link) fun _ _ => trivial
    next => trivial
  next => trivial

lemma speedScores_spec (budget : Fin ranks → Nat) (links : List (LinkObservation F)) :
    Returns (fun _ => True) (speedScores nodes budget links) :=
  .bind (Returns.foldlM (I := fun _ _ => True) trivial
    fun _ link _ known _ _ => addLink_spec nodes known link)
    fun _ _ => trivial

end

/-! ## The plan -/

/-- What a node holds according to the plan is what its shards need. -/
structure MemoryOf (node : NodeCapacity F) (rank : Nat)
    (partitions : List TensorPartition) (memory : NodeMemory) : Prop where
  position : memory.rank = rank
  id : memory.nodeId = node.id
  reserved : memory.reservedBytes = node.reservedBytes.toNat
  tensors : memory.tensorBytes = plannedBytes partitions rank
  total : memory.totalBytes = memory.tensorBytes + memory.reservedBytes
  available : memory.totalBytes ≤ node.availableBytes.toNat

/-- Every tensor has one partition, and every node one account. -/
structure PlanOf (nodes : Fin ranks → NodeCapacity F)
    (tensors : List TensorWorkload) (plan : PartitionPlan) : Prop where
  tensors : ∃ order, order.Perm tensors ∧ List.Forall₂ (PartitionOf nodes) order plan.tensors
  nodes : ∃ memory : Fin ranks → NodeMemory,
    plan.nodes = (List.finRange ranks).map memory ∧ ∀ rank : Fin ranks,
        MemoryOf (nodes rank) rank plan.tensors (memory rank)

omit [Float64 F] in
lemma nodeMemory_spec {partitions : List TensorPartition}
    (held : plannedBytes partitions rank + budget rank + (nodes rank).reservedBytes.toNat =
      (nodes rank).availableBytes.toNat) :
    Returns (MemoryOf (nodes rank) rank partitions) (nodeMemory nodes budget rank) := by
  refine .bind (.plainSub (by omega)) ?_
  intro total used
  refine .bind (.plainSub (by omega)) ?_
  intro tensorBytes rest
  exact ⟨rfl, rfl, rfl, by dsimp only; omega, by dsimp only; omega, by dsimp only; omega⟩

lemma planSorted_spec (nodes : Fin ranks → NodeCapacity F)
    (tensors : List TensorWorkload) (links : List (LinkObservation F)) :
    Returns (PlanOf nodes tensors) (planSorted nodes tensors links) := by
  refine .bind (.forRanks (nodeBudget_spec nodes)) ?_
  intro budget budgets
  refine .bind (speedScores_spec nodes budget links) ?_
  intro scores _
  refine .bind (Returns.foldlM (I := Demanded ranks) ⟨nofun, rfl⟩
    fun _ _ _ _ _ demanded => addDemand_spec demanded) ?_
  intro demand demanded
  rw [checkedSum_eq]
  refine .bind (m := fun _ => True) (by split <;> trivial) ?_
  intro aggregate _
  refine .bind .ensure ?_
  rintro ⟨⟩ _
  refine .bind (.forRanks fun rank => .checkedSub) ?_
  intro initial left
  have small : ∀ rank, initial rank < u64Limit := by
    intro rank
    have whole := budgets rank
    have spent := left rank
    have bound : (nodes rank).availableBytes.toNat < u64Limit :=
      (nodes rank).availableBytes.toNat_lt
    omega
  refine .bind (Returns.foldlM (I := Planned nodes initial)
    ⟨.nil, fun _ => by simp [plannedBytes], small⟩ ?_) ?_
  · intro done tensor rest planning whole planned
    refine planTensor_spec (demanded.valid tensor ?_) planned
    rw [whole]
    exact mem_append_right _ mem_cons_self
  · intro planning planned
    have account : ∀ rank, Returns (MemoryOf (nodes rank) rank planning.planned)
          (nodeMemory nodes planning.budget rank) := by
      intro rank
      have spent := left rank
      have whole := budgets rank
      have bytes := planned.bytes rank
      have minimum := demanded.minimum
      exact nodeMemory_spec (by omega)
    refine .bind (.forRanks account) ?_
    intro memory accounts
    have perm := List.mergeSort_perm planning.planned
      fun left right => left.tensorId ≤ right.tensorId
    refine ⟨?_, memory, rfl, fun rank => ?_⟩
    · have composed : Relation.Comp (List.Forall₂ (PartitionOf nodes)) List.Perm _ _ :=
        ⟨_, planned.each, perm.symm⟩
      rw [forall₂_comp_perm_eq_perm_comp_forall₂] at composed
      obtain ⟨order, same, partitions⟩ := composed
      exact ⟨order, same.symm, partitions⟩
    · have held := accounts rank
      refine { held with tensors := ?_ }
      rw [held.tensors]
      exact (perm.symm.map _).sum_eq

/-- For every list of nodes, tensors and links and whatever floating point
numbers do: the planner stops at no arithmetic that does not fit, and a plan
it returns is a plan of the sorted nodes and the tensors. -/
theorem planPartition_sound (nodes : List (NodeCapacity F))
    (tensors : List TensorWorkload) (links : List (LinkObservation F)) :
    (∀ fault, planPartition nodes tensors links ≠ .error (.panic fault)) ∧
    ∀ plan, planPartition nodes tensors links = .ok plan →
      ∃ sorted : List (NodeCapacity F), sorted.Perm nodes ∧ PlanOf sorted.get tensors plan := by
  have returns : Returns (fun plan => ∃ sorted : List (NodeCapacity F),
      sorted.Perm nodes ∧ PlanOf sorted.get tensors plan)
      (planPartition nodes tensors links) := by
    refine .bind .ensure ?_
    rintro ⟨⟩ _
    refine .bind .ensure ?_
    rintro ⟨⟩ _
    refine (planSorted_spec _ _ links).imp fun plan sound => ?_
    obtain ⟨order, perm, each⟩ := sound.tensors
    exact ⟨_, List.mergeSort_perm _ _,
      ⟨order, perm.trans (List.mergeSort_perm _ _), each⟩, sound.nodes⟩
  exact ⟨returns.not_panic, fun plan same => returns.post_of_eq_ok same⟩

/-- Two nodes with equal budgets. -/
def pairNodes : List (NodeCapacity Exact) :=
  [⟨"a", 20, 10, .rational 1⟩, ⟨"b", 30, 20, .rational 1⟩]

/-- One tensor on the two nodes. -/
def pairPlan : PartitionPlan where
  tensors := [⟨"t", [⟨0, "a", ⟨0, 2⟩, ⟨0, 64⟩, 10⟩, ⟨1, "b", ⟨2, 4⟩, ⟨64, 128⟩, 10⟩]⟩]
  nodes := [⟨0, "a", 10, 10, 20⟩, ⟨1, "b", 20, 10, 30⟩]

theorem planPartition_sound_of_pair :
    planPartition pairNodes [⟨"t", 4, 32, 5⟩] [] = .ok pairPlan ∧
      ∃ sorted : List (NodeCapacity Exact), sorted.Perm pairNodes ∧
        PlanOf sorted.get [⟨"t", 4, 32, 5⟩] pairPlan := by
  have planned : planPartition pairNodes [⟨"t", 4, 32, 5⟩] [] = .ok pairPlan := by
    show planSorted (List.mergeSort _ _).get _ _ = _
    rw [pairNodes, List.mergeSort_of_pairwise (by decide)]
    decide +kernel
  exact ⟨planned, (planPartition_sound _ _ _).2 _ planned⟩

end Joshua.Partition
