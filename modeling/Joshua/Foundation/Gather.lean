/-
Module: Joshua.Foundation.Gather
Purpose: Fallible work done item by item and put together again: in the order
  of the items, in the order in which the results come in, or run by run;
  items distributed to buckets by a key and read again in the order of the
  keys.
Trusted boundary: none
-/
import Joshua.Foundation.Machine
import Mathlib.Data.List.SplitBy

namespace Joshua.Foundation
open List

section
variable {α : Type*}

/-- Push each item to the bucket that its key names. -/
def distribute (count : Nat) (key : α → Nat) (items : List α) : List (List α) :=
  items.foldl (fun buckets item => buckets.modify (key item) (· ++ [item]))
    (List.replicate count [])

section
variable (count : Nat) (key : α → Nat) (items : List α)

lemma distribute_concat (item : α) : distribute count key (items ++ [item]) =
      (distribute count key items).modify (key item) (· ++ [item]) := by
  rw [distribute, foldl_append]
  rfl

lemma length_distribute : (distribute count key items).length = count := by
  induction items using List.reverseRecOn with
  | nil => exact length_replicate
  | append_singleton items item ih => rw [distribute_concat, length_modify, ih]

end

/-- A bucket holds the items of its key, in order. -/
lemma getElem?_distribute {count i : Nat} (key : α → Nat)
    (items : List α) (small : i < count) :
    (distribute count key items)[i]? = some (items.filter fun item => key item = i) := by
  induction items using List.reverseRecOn with
  | nil => rw [distribute, foldl_nil, List.getElem?_replicate, if_pos small, filter_nil]
  | append_singleton items item ih =>
    rw [distribute_concat, List.getElem?_modify, ih, filter_append]
    by_cases same : key item = i
    · simp [same]
    · simp [same]

/-- A list that is known at each place. -/
lemma eq_map_range {count : Nat} {each : Nat → α} (size : items.length = count)
    (known : ∀ i, i < count → items[i]? = some (each i)) :
    items = (List.range count).map each := by
  refine ext_getElem (by simpa using size) fun i inside _ => ?_
  have here := known i (size ▸ inside)
  rw [List.getElem?_eq_getElem inside, Option.some.injEq] at here
  simpa using here

lemma distribute_eq_map_range (count : Nat) (key : α → Nat) (items : List α) :
    distribute count key items = (List.range count).map fun index =>
        items.filter fun item => key item = index :=
  eq_map_range (length_distribute count key items) fun _ => getElem?_distribute key items

section
variable {α β : Type}

/-- Read the buckets in the order of the keys, each from its start. -/
def readBack (buckets : List (List α)) : List Nat → List Nat → Option (List α)
  | [], _ => some []
  | key :: keys, offsets => do
      let bucket ← buckets[key]?
      let offset ← offsets[key]?
      let item ← bucket[offset]?
      let rest ← readBack buckets keys (offsets.modify key (· + 1))
      return item :: rest

variable {key : α → Nat}

/-- Where reading stands once some items have been read. -/
lemma readBack_from {count : Nat} {buckets : List (List α)} (before after : List α)
    (mem : ∀ item ∈ after, key item < count)
    (filled : ∀ i, i < count → buckets[i]? =
      some ((before ++ after).filter fun item => key item = i))
    {offsets : List Nat}
    (read : ∀ i, i < count → offsets[i]? = some (before.filter fun item => key item = i).length) :
    readBack buckets (after.map key) offsets = some after := by
  induction after generalizing before offsets with
  | nil => rfl
  | cons item after ih =>
    rw [forall_mem_cons] at mem
    have here := filled _ mem.1
    rw [filter_append, filter_cons_of_pos (by simp)] at here
    have found : (before.filter (fun j => key j = key item) ++
        item :: after.filter (fun j => key j = key item))[
          (before.filter fun j => key j = key item).length]? =
        some item := by
      rw [List.getElem?_append_right le_rfl, Nat.sub_self]
      rfl
    have filled' : ∀ i, i < count → buckets[i]? =
        some (((before ++ [item]) ++ after).filter fun item => key item = i) := by
      intro i small
      rw [filled i small, List.append_assoc]
      rfl
    have read' : ∀ i, i < count → (offsets.modify (key item) (· + 1))[i]? =
          some ((before ++ [item]).filter fun item => key item = i).length := by
      intro i small
      rw [List.getElem?_modify, read i small, filter_append]
      by_cases same : key item = i
      · simp [same]
      · simp [same]
    have rest := ih (before ++ [item]) mem.2 filled' read'
    simp only [map_cons, readBack, here, read _ mem.1, found, rest,
      Option.bind_eq_bind, Option.bind_some, Option.pure_def]

/-- Reading in the order of the keys gives the items back. -/
lemma readBack_distribute {count : Nat} {items : List α} (mem : ∀ item ∈ items, key item < count) :
    readBack (distribute count key items) (items.map key)
      (List.replicate count 0) = some items := by
  refine readBack_from [] items mem ?_ ?_
  · intro i small
    rw [getElem?_distribute key items small]
    rfl
  · intro i small
    rw [List.getElem?_replicate, if_pos small]
    rfl

/-- Reading follows the places of the items and not the items. -/
lemma readBack_map (result : α → β) (buckets : List (List α)) (keys offsets : List Nat) :
    readBack (buckets.map fun bucket => bucket.map result) keys offsets =
      (readBack buckets keys offsets).map fun items => items.map result := by
  induction keys generalizing offsets with
  | nil => rfl
  | cons key keys ih =>
    simp only [readBack, List.getElem?_map, Option.bind_eq_bind, Option.pure_def, ih,
      Option.bind_map, Option.map_bind, Function.comp_def, Option.map_some, map_cons]

end

/-- The order by a first key, and by a second one where that is the same. -/
def pairLe (first second : α → Nat) (left right : α) : Bool :=
  first left < first right ||
    (first left = first right && second left ≤ second right)

variable {first second : α → Nat}

lemma pairLe_iff {left right : α} : pairLe first second left right = true ↔
      first left < first right ∨ first left = first right ∧ second left ≤ second right := by
  simp [pairLe]

/-- The sorted list is sorted. -/
lemma pairwise_mergeSort_pairLe (first second : α → Nat) (items : List α) :
    (items.mergeSort (pairLe first second)).Pairwise fun left right =>
      pairLe first second left right = true := by
  refine pairwise_mergeSort ?_ ?_ items
  · intro left middle right
    rw [pairLe_iff, pairLe_iff, pairLe_iff]
    omega
  · intro left right
    rw [Bool.or_eq_true, pairLe_iff, pairLe_iff]
    omega

/-- Sorting by two keys leaves the items of one first key in their order, if
the second key increases along them. -/
lemma filter_mergeSort {items : List α}
    (increasing : items.Pairwise fun left right => second left < second right) (index : Nat) :
    (items.mergeSort (pairLe first second)).filter (fun item => first item = index) =
      items.filter fun item => first item = index := by
  have same := (List.mergeSort_perm items (pairLe first second)).filter
    fun item => decide (first item = index)
  have sorted : ((items.mergeSort (pairLe first second)).filter
      fun item => first item = index).Pairwise
      fun left right => second left ≤ second right := by
    refine (pairwise_filter.mpr ?_)
    refine (pairwise_mergeSort_pairLe first second items).imp ?_
    intro left right before
    rw [pairLe_iff] at before
    simp only [decide_eq_true_eq]
    omega
  have unsorted : (items.filter fun item => first item = index).Pairwise
      fun left right => second left ≤ second right :=
    (increasing.filter _).imp le_of_lt
  refine List.Perm.eq_of_pairwise ?_ sorted unsorted same
  intro left right one two below above
  -- the second key tells the items apart
  have both : left ∈ items ∧ right ∈ items :=
    ⟨(mem_filter.mp (same.mem_iff.mp one)).1, (mem_filter.mp two).1⟩
  by_contra different
  have apart : items.Pairwise fun left right => second left ≠ second right :=
    increasing.imp Nat.ne_of_lt
  have symmetric : Std.Symm fun left right : α => second left ≠ second right := ⟨fun _ _ => Ne.symm⟩
  exact apart.forall both.1 both.2 different (le_antisymm below above)

end

section Work
variable {ε α β : Type} {work : α → Except ε β} {items : List α} {results : List β}

lemma mapM_eq_ok_map {result : α → β} (done : ∀ item ∈ items, work item = .ok (result item)) :
    items.mapM work = .ok (items.map result) := by
  induction items with
  | nil => rfl
  | cons item rest ih =>
    rw [forall_mem_cons] at done
    rw [mapM_cons, done.1, ih done.2]
    rfl

/-- The work is done where it is done for each item. -/
lemma exists_mapM_eq_ok (done : ∀ item ∈ items, ∃ result, work item = .ok result) :
    ∃ results, items.mapM work = .ok results := by
  cases items with
  | nil => exact ⟨[], rfl⟩
  | cons item rest =>
    obtain ⟨first, _⟩ := done item mem_cons_self
    have : Nonempty β := ⟨first⟩
    choose! result done using done
    exact ⟨_, mapM_eq_ok_map done⟩

/-- Where all the work is done each item has its result. -/
lemma forall₂_of_mapM_eq_ok (done : items.mapM work = .ok results) :
    List.Forall₂ (fun item result => work item = .ok result) items results := by
  induction items generalizing results with
  | nil =>
    cases done
    exact List.Forall₂.nil
  | cons item rest ih =>
    rw [mapM_cons] at done
    obtain ⟨result, first, done⟩ := bind_eq_ok.mp done
    obtain ⟨results, others, done⟩ := bind_eq_ok.mp done
    cases done
    exact List.Forall₂.cons first (ih others)

lemma exists_of_mapM_eq_ok (done : items.mapM work = .ok results) :
    (∀ item ∈ items, ∃ result ∈ results, work item = .ok result) ∧
      ∀ result ∈ results, ∃ item ∈ items, work item = .ok result := by
  have each := forall₂_of_mapM_eq_ok done
  clear done
  induction each with
  | nil => simp
  | cons first _ ih =>
    constructor
    · intro item mem
      cases mem with
      | head => exact ⟨_, mem_cons_self, first⟩
      | tail _ later =>
        obtain ⟨result, found, same⟩ := ih.1 item later
        exact ⟨result, mem_cons_of_mem _ found, same⟩
    · intro result mem
      cases mem with
      | head => exact ⟨_, mem_cons_self, first⟩
      | tail _ later =>
        obtain ⟨item, found, same⟩ := ih.2 result later
        exact ⟨item, mem_cons_of_mem _ found, same⟩

/-- What a result keeps of its item. -/
lemma map_eq_of_mapM_eq_ok {γ : Type} {before : α → γ} {after : β → γ}
    (done : items.mapM work = .ok results)
    (keeps : ∀ item result, work item = .ok result → after result = before item) :
    results.map after = items.map before := by
  have each := forall₂_of_mapM_eq_ok done
  clear done
  induction each with
  | nil => rfl
  | cons first _ ih => rw [map_cons, map_cons, ih, keeps _ _ first]

end Work

section Slots
variable {α : Type*}

/-- Results put to the slots of their numbers, in the order in which they come
in. -/
def fillSlots (count : Nat) (order : List Nat) (result : Nat → α) : List (Option α) :=
  order.foldl (fun slots index => slots.set index (some (result index))) (List.replicate count none)

lemma length_fillSlots (count : Nat) (order : List Nat) (result : Nat → α) :
    (fillSlots count order result).length = count := by
  induction order using List.reverseRecOn with
  | nil => exact length_replicate
  | append_singleton order i ih =>
    rw [fillSlots, foldl_append, foldl_cons, foldl_nil, length_set]
    exact ih

lemma getElem?_fillSlots {count slot : Nat} (order : List Nat)
    (result : Nat → α) (small : slot < count) :
    (fillSlots count order result)[slot]? =
      some (if slot ∈ order then some (result slot) else none) := by
  induction order using List.reverseRecOn with
  | nil => simp [fillSlots, small]
  | append_singleton order index ih =>
    have lt : slot < (fillSlots count order result).length := by
      rw [length_fillSlots]
      exact small
    rw [fillSlots] at ih lt
    rw [fillSlots, foldl_append, foldl_cons, foldl_nil, List.getElem?_set]
    by_cases same : index = slot
    · subst same
      simp [lt]
    · have other : slot ≠ index := fun equal => same equal.symm
      simp [same, other, ih]

/-- The order in which the results come in is not seen. -/
lemma fillSlots_of_perm {count : Nat} {order : List Nat}
    (result : Nat → α) (all : order.Perm (List.range count)) :
    fillSlots count order result = (List.range count).map fun i => some (result i) := by
  refine eq_map_range (length_fillSlots count order result) fun slot small => ?_
  rw [getElem?_fillSlots order result small, if_pos (all.mem_iff.mpr (List.mem_range.mpr small))]

end Slots

section Parts
variable {α : Type*} {part : Nat → List α}

lemma flatten_map_eq_nil {items : List Nat} (empty : ∀ i ∈ items, part i = []) :
    (items.map part).flatten = [] := by
  rw [flatten_eq_nil_iff, forall_mem_map]
  exact empty

/-- Of parts that are empty but for one, that one is left. -/
lemma flatten_map_range_single {count only : Nat} (small : only < count)
    (empty : ∀ i, i ≠ only → part i = []) :
    ((List.range count).map part).flatten = part only := by
  induction count with
  | zero => exact absurd small (Nat.not_lt_zero only)
  | succ count ih =>
    rw [range_succ, map_append, flatten_append]
    by_cases last : only = count
    · subst last
      rw [flatten_map_eq_nil fun i mem => empty i (Nat.ne_of_lt (List.mem_range.mp mem))]
      simp
    · have before := Nat.lt_of_le_of_ne (Nat.le_of_lt_succ small) last
      rw [ih before]
      simp [empty count (fun same => last same.symm)]

end Parts

section Runs
variable {α β : Type*}

/-- A run has one key. -/
lemma key_eq_of_mem_splitBy {key : α → Nat} {items : List α} {first : α} {rest : List α}
    (run : first :: rest ∈ items.splitBy fun left right => key left == key right) :
    ∀ item ∈ first :: rest, key item = key first := by
  have chain := List.isChain_of_mem_splitBy run
  have linked : (first :: rest).IsChain fun left right => key left = key right := by
    refine chain.imp ?_
    intro left right same
    exact eq_of_beq same
  have ordered : (first :: rest).Pairwise fun left right => key left = key right := by
    have transitive : IsTrans α fun left right => key left = key right := ⟨fun _ _ _ => Eq.trans⟩
    exact linked.pairwise
  rw [pairwise_cons] at ordered
  intro item mem
  cases mem with
  | head => rfl
  | tail _ later => exact (ordered.1 item later).symm

lemma zip_map_self (result : α → β) (items : List α) :
    items.zip (items.map result) = items.map fun item => (item, result item) := by
  simpa using @zip_map' _ _ _ id result items

/-- Work by runs is work item by item. -/
lemma flatten_map_splitBy (same : α → α → Bool) (result : α → β) (items : List α) :
    ((items.splitBy same).map fun run => run.map result).flatten = items.map result := by
  rw [← map_flatten, flatten_splitBy]

end Runs

end Joshua.Foundation
