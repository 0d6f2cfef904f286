/-
Module: Joshua.Foundation.HashChain
Purpose: Chains of keys in which every key is computed from the one before and
  the next chunk of a sequence: two chains share as many keys as the sequences
  share chunks.
Trusted boundary: none
-/
import Mathlib.Algebra.GroupWithZero.Nat

namespace Joshua.Foundation
open List

/-! ## Common beginnings -/

variable {α : Type*}

section Common
variable [DecidableEq α]

/-- The length of the longest common beginning of two sequences. -/
def commonLength : List α → List α → Nat
  | left :: first, right :: second => if left = right then commonLength first second + 1 else 0
  | _, _ => 0

lemma commonLength_eq_takeWhile (first second : List α) :
    ((first.zip second).takeWhile fun pair =>
      decide (pair.1 = pair.2)).length =
      commonLength first second := by
  induction first generalizing second with
  | nil => simp [commonLength]
  | cons left first ih =>
    cases second with
    | nil => simp [commonLength]
    | cons right second =>
      rw [zip_cons_cons, takeWhile_cons, commonLength]
      by_cases same : left = right
      · simp [same, ih]
      · simp [same]

lemma commonLength_append_left (start first second : List α) :
    commonLength (start ++ first) (start ++ second) = start.length + commonLength first second := by
  induction start with
  | nil => exact (zero_add _).symm
  | cons item rest ih =>
    rw [cons_append, cons_append, commonLength, if_pos rfl, ih, length_cons]
    omega

lemma commonLength_le (first second : List α) :
    commonLength first second ≤ min first.length second.length := by
  rw [← commonLength_eq_takeWhile, ← length_zip]
  exact ( takeWhile_prefix _).length_le

/-- Sequences that differ at their beginnings share less than that. -/
lemma commonLength_lt_of_ne {left right : List α} (first second : List α)
    (size : left.length = right.length) (different : left ≠ right) :
    commonLength (left ++ first) (right ++ second) < left.length := by
  induction left generalizing right with
  | nil => exact absurd (length_eq_zero_iff.mp size.symm).symm different
  | cons item rest ih =>
    cases right with
    | nil => cases size
    | cons j others =>
      rw [cons_append, cons_append, commonLength, length_cons]
      split
      next same =>
        refine Nat.succ_lt_succ (ih (Nat.succ.inj size) fun equal => different ?_)
        rw [same, equal]
      next => exact Nat.succ_pos _

end Common

/-! ## Chunks -/

section Chunks

/-- The first `count` chunks of `size` items. -/
def chunks (size : Nat) : Nat → List α → List (List α)
  | 0, _ => []
  | count + 1, items => items.take size :: chunks size count (items.drop size)

/-- `chunks_exact`: all complete chunks. -/
def chunksExact (size : Nat) (items : List α) : List (List α) :=
  chunks size (items.length / size) items

variable {items chunk : List α} {size count : Nat}

lemma length_of_mem_chunks (enough : count * size ≤ items.length)
    (mem : chunk ∈ chunks size count items) : chunk.length = size := by
  induction count generalizing items with
  | zero => cases mem
  | succ count ih =>
    rw [Nat.succ_mul] at enough
    rcases mem_cons.mp mem with rfl | later
    · rw [length_take]
      omega
    · refine ih ?_ later
      rw [length_drop]
      omega

lemma length_of_mem_chunksExact (mem : chunk ∈ chunksExact size items) : chunk.length = size :=
  length_of_mem_chunks (Nat.div_mul_le_self _ _) mem

lemma length_chunks (size count : Nat) (items : List α) :
    (chunks size count items).length = count := by
  induction count generalizing items with
  | zero => rfl
  | succ count ih => rw [chunks, length_cons, ih]

lemma length_chunksExact (size : Nat) (items : List α) :
    (chunksExact size items).length = items.length / size :=
  length_chunks _ _ _

lemma chunksExact_of_short (short : items.length < size) : chunksExact size items = [] := by
  rw [chunksExact, Nat.div_eq_of_lt short]
  rfl

variable {size : Nat} (positive : 0 < size)
include positive

lemma chunksExact_append (full : chunk.length = size) (rest : List α) :
    chunksExact size (chunk ++ rest) = chunk :: chunksExact size rest := by
  have count : (chunk ++ rest).length / size = rest.length / size + 1 := by
    rw [length_append, full, Nat.add_div_left _ positive]
  rw [chunksExact, count, chunks, take_left' full, drop_left' full]
  rfl

/-- Cutting at a chunk boundary cuts the chunks. -/
lemma chunksExact_split (items : List α) (lt : count * size ≤ items.length) :
    chunksExact size items = chunksExact size (items.take (count * size)) ++
        chunksExact size (items.drop (count * size)) := by
  induction count generalizing items with
  | zero =>
    rw [zero_mul, take_zero, drop_zero,
      chunksExact_of_short (show ([] : List α).length < size from positive), nil_append]
  | succ count ih =>
    rw [Nat.succ_mul] at lt ⊢
    have full : (items.take size).length = size := by
      rw [length_take]
      omega
    have front : (items.take (count * size + size)) =
        items.take size ++ (items.drop size).take (count * size) := by
      rw [add_comm, take_add]
    have split := chunksExact_append positive full (items.drop size)
    rw [take_append_drop] at split
    rw [split, front, chunksExact_append positive full, cons_append,
      add_comm (count * size), ← drop_drop, ← ih (items.drop size) (by rw [length_drop]; omega)]

/-- Sequences share as many complete chunks as fit in what they share. -/
lemma commonLength_chunksExact [DecidableEq α] (first second : List α) :
    commonLength (chunksExact size first) (chunksExact size second) =
      commonLength first second / size := by
  by_cases long : size ≤ first.length ∧ size ≤ second.length
  · obtain ⟨longFirst, longSecond⟩ := long
    have fullFirst : (first.take size).length = size := by
      rw [length_take]
      omega
    have fullSecond : (second.take size).length = size := by
      rw [length_take]
      omega
    rw [← take_append_drop size first, ← take_append_drop size second,
      chunksExact_append positive fullFirst, chunksExact_append positive fullSecond, commonLength]
    by_cases same : first.take size = second.take size
    · rw [if_pos same, same, commonLength_append_left, fullSecond,
        commonLength_chunksExact (first.drop size) (second.drop size), Nat.add_div_left _ positive]
    · have less := commonLength_lt_of_ne (first.drop size)
        (second.drop size) (fullFirst.trans fullSecond.symm) same
      rw [if_neg same, Nat.div_eq_of_lt (by omega)]
  · -- one of the two has no complete chunk
    have less : commonLength first second < size := by
      have bound := commonLength_le first second
      omega
    rw [Nat.div_eq_of_lt less]
    refine Nat.le_zero.mp (Nat.le_trans (commonLength_le _ _) ?_)
    rcases Nat.lt_or_ge first.length size with short | enough
    · rw [chunksExact_of_short short]
      exact Nat.min_le_left _ _
    · rw [chunksExact_of_short (show second.length < size by omega)]
      exact Nat.min_le_right _ _
termination_by first.length
decreasing_by
  rw [length_drop]
  omega

end Chunks

/-! ## Chains -/

section Chain
variable {κ γ : Type*} (step : κ → γ → κ)

/-- The keys after a seed, one for each chunk. -/
def chainFrom (seed : κ) : List γ → List κ
  | [] => []
  | chunk :: rest => step seed chunk :: chainFrom (step seed chunk) rest

lemma length_chainFrom (seed : κ) (chunks : List γ) :
    (chainFrom step seed chunks).length = chunks.length := by
  induction chunks generalizing seed with
  | nil => rfl
  | cons chunk rest ih => rw [chainFrom, length_cons, ih, length_cons]

/-- The last key, or the seed. -/
def tipFrom (seed : κ) (chunks : List γ) : κ :=
  (chainFrom step seed chunks).getLastD seed

lemma tipFrom_cons (seed : κ) (chunk : γ) (rest : List γ) : tipFrom step seed (chunk :: rest) =
      tipFrom step (step seed chunk) rest := by
  rw [tipFrom, tipFrom, chainFrom, getLastD_cons]

/-- A chain goes on from its last key. -/
lemma chainFrom_append (seed : κ) (first second : List γ) :
    chainFrom step seed (first ++ second) = chainFrom step seed first ++
        chainFrom step (tipFrom step seed first) second := by
  induction first generalizing seed with
  | nil => rfl
  | cons chunk rest ih => rw [cons_append, chainFrom, chainFrom, ih, tipFrom_cons, cons_append]

/-- What the steps of a chain are computed from. -/
def chainInputs (seed : κ) : List γ → List (κ × γ)
  | [] => []
  | chunk :: rest => (seed, chunk) :: chainInputs (step seed chunk) rest

/-- Different inputs of two chains give different keys. -/
def Separates (left right : List (κ × γ)) : Prop :=
  ∀ first ∈ left, ∀ second ∈ right, step first.1 first.2 = step second.1 second.2 → first = second

/-- Two chains share as many keys as their sequences share chunks behind the
same seed, and none behind different seeds. -/
lemma commonLength_chainFrom [DecidableEq κ] [DecidableEq γ]
    {left right : κ} {first second : List γ}
    (separates : Separates step (chainInputs step left first) (chainInputs step right second)) :
    commonLength (chainFrom step left first) (chainFrom step right second) =
      if left = right then commonLength first second else 0 := by
  induction first generalizing left right second with
  | nil => simp [chainFrom, commonLength]
  | cons chunk first ih =>
    cases second with
    | nil => simp [chainFrom, commonLength]
    | cons other second =>
      have later := ih (fun one inOne two inTwo => separates one (List.mem_cons_of_mem _ inOne) two
          (List.mem_cons_of_mem _ inTwo))
      rw [chainFrom, chainFrom, commonLength, commonLength, later]
      have inverse : step left chunk = step right other ↔ left = right ∧ chunk = other := by
        constructor
        · intro same
          have equal := separates (left, chunk) List.mem_cons_self
            (right, other) List.mem_cons_self same
          exact Prod.mk.injEq _ _ _ _ ▸ equal
        · rintro ⟨rfl, rfl⟩
          rfl
      by_cases seeds : left = right
      · by_cases chunks : chunk = other
        · simp [seeds, chunks]
        · rw [if_neg (by rw [inverse]; exact fun both => chunks both.2),
            if_pos seeds, if_neg chunks]
      · rw [if_neg (by rw [inverse]; exact fun both => seeds both.1), if_neg seeds]

end Chain

end Joshua.Foundation
