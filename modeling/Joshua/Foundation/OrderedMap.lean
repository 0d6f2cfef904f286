/-
Module: Joshua.Foundation.OrderedMap
Purpose: A map that remembers the order of its keys, as the list of its
  entries: inserting overwrites in place or appends, removing moves the last
  entry into the hole; counters by key in a hash map whose absent entries count
  as zero, sums over a list of holders of which one changes at a time, and
  amounts held under keys with their total in one 64-bit counter.
Trusted boundary: none
-/
import Joshua.Foundation.Collections
import Joshua.Foundation.Machine
import Mathlib.Algebra.Order.BigOperators.Group.List
import Mathlib.Algebra.Order.Group.Nat
import Mathlib.Data.List.AList
import Mathlib.Data.List.Induction

namespace Joshua.Foundation.OrderedMap
open List

variable {κ ν : Type*} [DecidableEq κ]

def keys (entries : List (κ × ν)) : List κ :=
  entries.map Prod.fst

def get (key : κ) (entries : List (κ × ν)) : Option ν :=
  (entries.find? fun entry => entry.1 = key).map Prod.snd

/-- Overwrite the value of a key where it stands, or append a new entry. -/
def insert (key : κ) (value : ν) (entries : List (κ × ν)) : List (κ × ν) :=
  if key ∈ keys entries then
    entries.map fun entry => if entry.1 = key then (key, value) else entry
  else
    entries ++ [(key, value)]

/-- Take an entry out, with the last one moved into its place. -/
def remove (key : κ) (entries : List (κ × ν)) : Option (ν × List (κ × ν)) :=
  (entries.findIdx? fun entry => entry.1 = key).bind fun index =>
    entries[index]?.map fun entry => (entry.2, swapRemove entries index)

variable {key : κ} {value : ν} {entries : List (κ × ν)}
omit [DecidableEq κ] in
lemma mem_keys : key ∈ keys entries ↔ ∃ value, (key, value) ∈ entries := by
  simp [keys]

lemma get_eq_none : get key entries = none ↔ key ∉ keys entries := by
  simp only [get, Option.map_eq_none_iff, List.find?_eq_none, decide_eq_true_eq,
    keys, mem_map, not_exists, not_and]

lemma mem_of_get (found : get key entries = some value) : (key, value) ∈ entries := by
  rw [get, Option.map_eq_some_iff] at found
  obtain ⟨entry, search, rfl⟩ := found
  have same : entry.1 = key := by simpa using List.find?_some search
  rw [← same]
  exact mem_of_find?_eq_some search

omit [DecidableEq κ] in
/-- Under one key there is one value. -/
lemma value_unique (unique : (keys entries).Nodup) {other : ν} (first : (key, value) ∈ entries)
    (second : (key, other) ∈ entries) : value = other := by
  have same := List.inj_on_of_nodup_map unique first second rfl
  exact congrArg Prod.snd same

lemma get_eq_some (unique : (keys entries).Nodup) :
    get key entries = some value ↔ (key, value) ∈ entries := by
  constructor
  · exact mem_of_get
  · intro mem
    cases search : get key entries with
    | none => exact absurd (mem_keys.mpr ⟨value, mem⟩) (get_eq_none.mp search)
    | some j => rw [value_unique unique mem (mem_of_get search)]

/-- Two maps with the same entries answer alike. -/
lemma get_congr {others : List (κ × ν)} (unique : (keys entries).Nodup)
    (otherUnique : (keys others).Nodup)
    (same : ∀ value, (key, value) ∈ entries ↔ (key, value) ∈ others) :
    get key entries = get key others := by
  apply Option.ext
  intro value
  rw [get_eq_some unique, get_eq_some otherUnique]
  exact same value

variable {entry : κ × ν}

lemma mem_insert : entry ∈ insert key value entries ↔
      entry = (key, value) ∨ (entry ∈ entries ∧ entry.1 ≠ key) := by
  obtain ⟨entryKey, entryValue⟩ := entry
  rw [insert]
  split
  next present =>
    rw [mem_map]
    constructor
    · rintro ⟨old, mem, image⟩
      split at image
      · exact .inl image.symm
      · subst image
        rename_i different
        exact .inr ⟨mem, different⟩
    · intro choice
      rcases choice with new | ⟨mem, different⟩
      · obtain ⟨old, mem⟩ := mem_keys.mp present
        exact ⟨(key, old), mem, by simp [new]⟩
      · exact ⟨_, mem, if_neg different⟩
  next absent =>
    rw [mem_append, mem_singleton, or_comm]
    apply or_congr_right
    constructor
    · intro mem
      refine ⟨mem, ?_⟩
      intro same
      subst same
      exact absent (mem_keys.mpr ⟨entryValue, mem⟩)
    · exact And.left

/-- Replacing a value by itself changes nothing. -/
lemma insert_same (unique : (keys entries).Nodup) (mem : (key, value) ∈ entries) :
    insert key value entries = entries := by
  rw [insert, if_pos (mem_keys.mpr ⟨value, mem⟩)]
  conv_rhs => rw [← map_id entries]
  apply map_congr_left
  intro entry inside
  split
  next same =>
    obtain ⟨entryKey, entryValue⟩ := entry
    subst same
    rw [id, value_unique unique mem inside]
  next => rfl

/-- Only the entry of a key is replaced. -/
lemma keys_insert_present (present : key ∈ keys entries) :
    keys (insert key value entries) = keys entries := by
  rw [insert, if_pos present, keys, keys, map_map]
  apply map_congr_left
  intro entry _
  simp only [Function.comp]
  split
  next same => exact same.symm
  next => rfl

lemma keys_insert_absent (absent : key ∉ keys entries) :
    keys (insert key value entries) = keys entries ++ [key] := by
  rw [insert, if_neg absent]
  simp [keys]

lemma keys_insert_nodup (unique : (keys entries).Nodup) :
    (keys (insert key value entries)).Nodup := by
  by_cases present : key ∈ keys entries
  · rw [keys_insert_present present]
    exact unique
  · rw [keys_insert_absent present]
    exact concat_eq_append ▸ unique.concat present

/-- The entry taken out and the entries left are the entries there were. -/
lemma remove_perm {left : List (κ × ν)} (removed : remove key entries = some (value, left)) :
    ((key, value) :: left).Perm entries := by
  simp only [remove, Option.bind_eq_some_iff, Option.map_eq_some_iff, Prod.mk.injEq] at removed
  obtain ⟨i, search, entry, here, rfl, rfl⟩ := removed
  have same : entry.1 = key := by
    obtain ⟨inside, found, _⟩ := List.findIdx?_eq_some_iff_getElem.mp search
    rw [List.getElem?_eq_getElem inside, Option.some.injEq] at here
    simpa [here] using found
  subst same
  exact swapRemove_perm here

omit [DecidableEq κ] in
lemma keys_nodup_of_perm {left : List (κ × ν)} (perm : ((key, value) :: left).Perm entries)
    (unique : (keys entries).Nodup) : key ∉ keys left ∧ (keys left).Nodup :=
  nodup_cons.mp ((perm.map Prod.fst).nodup_iff.mpr unique)

lemma remove_isSome (present : key ∈ keys entries) :
    ∃ value left, remove key entries = some (value, left) := by
  obtain ⟨value, mem⟩ := mem_keys.mp present
  cases search : entries.findIdx? fun entry => entry.1 = key with
  | none =>
    rw [List.findIdx?_eq_none_iff] at search
    simpa using search _ mem
  | some i =>
    obtain ⟨inside, _⟩ := List.findIdx?_eq_some_iff_getElem.mp search
    refine ⟨(entries[i]).2, swapRemove entries i, ?_⟩
    simp [remove, search, List.getElem?_eq_getElem inside]

/-! ## A map filled entry by entry -/

section
variable (entries : List (κ × ν))

/-- The map after inserting entries in order. -/
def collect : List (κ × ν) :=
  entries.foldl (fun filled entry => insert entry.1 entry.2 filled) []

lemma collect_concat (entry : κ × ν) : collect (entries ++ [entry]) =
      insert entry.1 entry.2 (collect entries) := by
  rw [collect, foldl_append]
  rfl

lemma collect_nodup : (keys (collect entries)).Nodup := by
  induction entries using List.reverseRecOn with
  | nil => exact nodup_nil
  | append_singleton entries entry ih =>
    rw [collect_concat]
    exact keys_insert_nodup ih

end

lemma mem_of_mem_collect (mem : entry ∈ collect entries) : entry ∈ entries := by
  induction entries using List.reverseRecOn with
  | nil => exact mem
  | append_singleton entries last ih =>
    rw [collect_concat, mem_insert] at mem
    rw [mem_append]
    rcases mem with rfl | ⟨earlier, _⟩
    · exact .inr (mem_singleton.mpr rfl)
    · exact .inl (ih earlier)

lemma length_collect_le (entries : List (κ × ν)) : (collect entries).length ≤ entries.length :=
  (subperm_of_subset ((collect_nodup entries).of_map _) fun _ => mem_of_mem_collect).length_le

/-- Entries under different keys are the map. -/
lemma collect_of_nodup (unique : (keys entries).Nodup) : collect entries = entries := by
  induction entries using List.reverseRecOn with
  | nil => rfl
  | append_singleton entries entry ih =>
    rw [keys, map_append] at unique
    have absent : entry.1 ∉ keys entries :=
      fun present => List.disjoint_of_nodup_append unique present (mem_singleton.mpr rfl)
    rw [collect_concat, ih unique.of_append_left, insert, if_neg absent]

end Joshua.Foundation.OrderedMap

namespace Joshua.Foundation
open List

/-- Counters by key. -/
abbrev Counts (κ : Type) := AList fun _ : κ => Nat

namespace Counts

variable {κ : Type} [DecidableEq κ]

/-- The counter of a key; an absent one is zero. -/
def read (counts : Counts κ) (key : κ) : Nat :=
  (counts.lookup key).getD 0

/-- `*counts.entry(key).or_default() += amount`. -/
def add (key : κ) (amount : Nat) (counts : Counts κ) : Counts κ :=
  counts.insert key (counts.read key + amount)

/-- Take `amount` off a counter that is there, and the counter out of the map
when it comes to zero. -/
def sub (key : κ) (amount : Nat) (counts : Counts κ) : Counts κ :=
  match counts.lookup key with
  | none => counts
  | some value =>
    if value - amount = 0 then
      counts.erase key
    else
      counts.insert key (value - amount)

@[simp] lemma read_empty (key : κ) : read (∅ : Counts κ) key = 0 := by
  rw [read, AList.lookup_empty]
  rfl

section
variable (counts : Counts κ) (key other : κ) (amount : Nat)

lemma read_add :
    (counts.add key amount).read other = counts.read other + if other = key then amount else 0 := by
  by_cases same : other = key
  · subst same
    rw [add, read, AList.lookup_insert, if_pos rfl]
    rfl
  · rw [add, read, AList.lookup_insert_ne same, if_neg same, add_zero]
    rfl

lemma read_sub :
    (counts.sub key amount).read other = counts.read other - if other = key then amount else 0 := by
  rw [sub]
  by_cases same : other = key
  · subst same
    rw [if_pos rfl, read, read]
    cases search : counts.lookup other with
    | none =>
      rw [search]
      exact (Nat.zero_sub amount).symm
    | some value =>
      dsimp only
      split
      next gone =>
        rw [AList.lookup_erase]
        exact gone.symm
      next =>
        rw [AList.lookup_insert]
        rfl
  · rw [if_neg same, Nat.sub_zero]
    split
    · rfl
    · split
      · rw [read, AList.lookup_erase_ne same, read]
      · rw [read, AList.lookup_insert_ne same, read]

end

end Counts

/-! ## What holders have a share of -/

section Share
variable {η : Type*}

/-- The sum of the shares of all holders. -/
def share (weight : η → Nat) (holders : List η) : Nat :=
  (holders.map weight).sum

section
variable (weight : η → Nat)

@[simp] lemma share_cons (holder : η) (holders : List η) :
    share weight (holder :: holders) = weight holder + share weight holders :=
  sum_cons

/-- The share of one holder in the middle and that of the others. -/
lemma share_split (before after : List η) (holder : η) :
    share weight (before ++ holder :: after) = weight holder + share weight (before ++ after) := by
  rw [share, share, map_append, map_append, map_cons, sum_append, sum_append, sum_cons]
  exact add_left_comm _ _ _

/-- Holders without a share do not matter. -/
lemma share_filter (holds : η → Bool) (holders : List η) :
    share (fun holder => if holds holder then weight holder else 0) holders =
      share weight (holders.filter holds) := by
  induction holders with
  | nil => rfl
  | cons holder rest ih =>
    rw [share_cons, ih]
    cases held : holds holder with
    | true => rw [filter_cons_of_pos held, share_cons, if_pos rfl]
    | false => rw [filter_cons_of_neg (by simp [held]), if_neg (by simp), zero_add]

end

/-- Holders of one each are counted. -/
lemma share_one (holders : List η) : share (fun _ => 1) holders = holders.length := by
  simp [share]

variable {holders : List η} {weight other : η → Nat}

lemma share_congr (same : ∀ holder ∈ holders, weight holder = other holder) :
    share weight holders = share other holders := by
  rw [share, share, map_congr_left same]

lemma share_le (less : ∀ holder ∈ holders, weight holder ≤ other holder) :
    share weight holders ≤ share other holders :=
  sum_le_sum less

end Share

/-- `saturating_add` on a 64-bit counter. -/
def satAdd (left right : Nat) : Nat :=
  min (left + right) (u64Limit - 1)

/-- `+` on a 64-bit counter of an unchecked build. -/
def wrapAdd (left right : Nat) : Nat :=
  (left + right) % u64Limit

variable {left right bound : Nat}

/-- A saturating sum below a bound that is not the largest counter value is
the sum. -/
lemma add_le_of_satAdd_le (small : bound < u64Limit - 1) (fits : satAdd left right ≤ bound) :
    left + right ≤ bound := by
  rcases min_le_iff.mp fits with sum | limit
  · exact sum
  · exact absurd limit (not_le.mpr small)

lemma satAdd_le_of_add_le (fits : left + right ≤ bound) : satAdd left right ≤ bound :=
  le_trans (min_le_left _ _) fits

lemma wrapAdd_of_lt (fits : left + right < u64Limit) : wrapAdd left right = left + right :=
  Nat.mod_eq_of_lt fits

namespace Ledger

variable {κ ν : Type*} (amount : ν → Nat)

/-- The sum of the amounts held under all keys. -/
def total (entries : List (κ × ν)) : Nat :=
  (entries.map fun entry => amount entry.2).sum

@[simp] lemma total_nil : total amount ([] : List (κ × ν)) = 0 := rfl

@[simp] lemma total_cons (entry : κ × ν) (entries : List (κ × ν)) :
    total amount (entry :: entries) = amount entry.2 + total amount entries :=
  List.sum_cons

@[simp] lemma total_append (left right : List (κ × ν)) :
    total amount (left ++ right) = total amount left + total amount right := by
  rw [total, List.map_append, List.sum_append]
  rfl

lemma total_perm {left right : List (κ × ν)} (same : left.Perm right) :
    total amount left = total amount right :=
  (same.map _).sum_eq

variable [DecidableEq κ] {key : κ} {value : ν} {entries : List (κ × ν)}

/-- A new key adds its amount. -/
lemma total_insert_absent (value : ν) (absent : key ∉ OrderedMap.keys entries) :
    total amount (OrderedMap.insert key value entries) = total amount entries + amount value := by
  rw [OrderedMap.insert, if_neg absent, total_append, total_cons, total_nil, add_zero]

/-- Overwriting a value by one of the same amount keeps the total. -/
lemma total_insert_same {old : ν} (unique : (OrderedMap.keys entries).Nodup)
    (held : (key, old) ∈ entries) (same : amount value = amount old) :
    total amount (OrderedMap.insert key value entries) = total amount entries := by
  rw [OrderedMap.insert, if_pos (OrderedMap.mem_keys.mpr ⟨old, held⟩), total, List.map_map, total]
  congr 1
  apply List.map_congr_left
  intro entry mem
  obtain ⟨entryKey, entryValue⟩ := entry
  simp only [Function.comp_apply]
  split
  next here =>
    subst here
    rw [same, OrderedMap.value_unique unique held mem]
  next => rfl

/-- What was taken out and what is left make up the total. -/
lemma total_remove {left : List (κ × ν)}
    (removed : OrderedMap.remove key entries = some (value, left)) :
    amount value + total amount left = total amount entries := by
  rw [← total_perm amount (OrderedMap.remove_perm removed), total_cons]

end Ledger

end Joshua.Foundation
