/-
Module: Joshua.Foundation.DemandCaching
Purpose: Caches of bounded size that load an item when it is asked for and
  absent, and why none of them has more hits than one that gives up the item
  whose next request is farthest away.
Trusted boundary: none
-/
import Mathlib.Data.Finset.Card

namespace Joshua.Foundation
open Finset

variable {α : Type*} [DecidableEq α]

/-- The hits of a policy that loads every item it misses and gives up what it
likes to make room; without slots there is nothing to load into. -/
inductive Demand (slots : Nat) : Finset α → List α → Nat → Prop
  | nil {cache} : Demand slots cache [] 0
  | hit {cache item rest hits} (held : item ∈ cache) (later : Demand slots cache rest hits) :
      Demand slots cache (item :: rest) (hits + 1)
  | miss {cache next item rest hits} (absent : item ∉ cache) (loads : next ⊆ insert item cache)
      (loaded : item ∈ next ∨ slots = 0) (fits : next.card ≤ slots)
      (later : Demand slots next rest hits) : Demand slots cache (item :: rest) hits

/-- How many items of a cache are among the next requests. -/
def needed (cache : Finset α) (requests : List α) (span : Nat) : Nat :=
  (cache.filter (· ∈ requests.take span)).card

/-- A load leaves the cache ahead within a span: it adds to what was needed, or
the slots are full of what is needed. -/
def Loads (slots : Nat) (cache next : Finset α) (item : α) (rest : List α) : Prop :=
  ∀ span, needed cache rest span + (if item ∈ rest.take span then 1 else 0) ≤
      needed next rest span ∨
    slots ≤ needed next rest span + if item ∈ rest.take span then 0 else 1

/-- The hits of a policy whose loads leave it ahead within every span. -/
inductive Farthest (slots : Nat) : Finset α → List α → Nat → Prop
  | nil {cache} : Farthest slots cache [] 0
  | hit {cache item rest hits} (held : item ∈ cache) (later : Farthest slots cache rest hits) :
      Farthest slots cache (item :: rest) (hits + 1)
  | miss {cache next item rest hits} (absent : item ∉ cache)
      (loads : Loads slots cache next item rest) (later : Farthest slots next rest hits) :
      Farthest slots cache (item :: rest) hits

section
variable {slots span : Nat} {cache next : Finset α} {item victim : α} {rest : List α}

lemma needed_cons : needed cache (item :: rest) (span + 1) = needed cache rest span +
    if item ∈ cache ∧ item ∉ rest.take span then 1 else 0 := by
  simp only [needed, List.take_succ_cons, List.mem_cons]
  split_ifs with new
  · rw [← card_insert_of_notMem (a := item) (by simp [new.2])]
    congr 1
    grind
  · congr 1
    grind

@[simp]
lemma needed_zero : needed cache rest 0 = 0 := by
  simp [needed]

variable (cache item rest span) in
lemma needed_le_card : needed cache rest span +
    (if item ∈ cache ∧ item ∉ rest.take span then 1 else 0) ≤ cache.card := by
  rw [← needed_cons]
  exact card_filter_le _ _

lemma needed_insert (absent : item ∉ cache) : needed (insert item cache) rest span =
    needed cache rest span + if item ∈ rest.take span then 1 else 0 := by
  rw [needed, needed, filter_insert]
  split_ifs
  · exact card_insert_of_notMem (by simp [absent])
  · rfl

lemma needed_mono (sub : next ⊆ cache) : needed next rest span ≤ needed cache rest span :=
  card_le_card (filter_subset_filter _ sub)

/-- An item that is not asked for again need not be loaded. -/
lemma Loads.bypass (never : item ∉ rest) : Loads slots cache cache item rest := by
  intro span
  left
  rw [if_neg fun soon => never (List.mem_of_mem_take soon), Nat.add_zero]

lemma Loads.fill (absent : item ∉ cache) : Loads slots cache (insert item cache) item rest :=
  fun _ => .inl (needed_insert absent).ge

/-- Where the victim is needed, the whole cache is. -/
lemma Loads.evict (absent : item ∉ cache) (full : slots ≤ cache.card) (held : victim ∈ cache)
    (farthest : ∀ span, victim ∈ rest.take span → ∀ x ∈ cache, x ∈ rest.take span) :
    Loads slots cache (insert item (cache.erase victim)) item rest := by
  intro span
  rw [needed_insert fun left => absent (mem_of_mem_erase left)]
  by_cases soon : victim ∈ rest.take span
  · right
    have all : needed (cache.erase victim) rest span = cache.card - 1 := by
      rw [needed, filter_true_of_mem, card_erase_of_mem held]
      exact fun x left => farthest span soon x (mem_of_mem_erase left)
    have pos := card_pos.mpr ⟨_, held⟩
    split_ifs <;> omega
  · left
    have same : needed cache rest span ≤ needed (cache.erase victim) rest span := by
      apply card_le_card
      intro x mem
      simp only [mem_filter, mem_erase] at mem ⊢
      exact ⟨⟨fun same => soon (same ▸ mem.2), mem.1⟩, mem.2⟩
    omega

end

variable {requests : List α} {slots hits best : Nat}

/-- Whatever a demand policy has earned and still holds for the next requests,
the farthest one has, within every span; so at the end it has as many hits. -/
lemma Demand.le_farthest {ahead behind : Nat} {cache far : Finset α}
    (demand : Demand slots cache requests hits) (farthest : Farthest slots far requests best)
    (fits : cache.card ≤ slots)
    (lead : ∀ span, behind + needed cache requests span ≤ ahead + needed far requests span) :
    behind + hits ≤ ahead + best := by
  induction demand generalizing far best ahead behind with
  | nil =>
    cases farthest
    simpa [needed] using lead 0
  | @hit cache item rest hits held later ih =>
    have now := lead 1
    have lead := fun span => lead (span + 1)
    simp only [needed_cons, needed_zero, held, List.take_zero, List.not_mem_nil] at now lead
    cases farthest with
    | hit held' later' =>
      have earned : behind + hits ≤ ahead + _ := ih later' fits fun span => by
        have leads := lead span
        grind
      omega
    | miss absent loads later' =>
      have earned : behind + 1 + hits ≤ ahead + best := ih later' fits fun span => by
        have bound := needed_le_card span cache item rest
        have leads := lead span
        have loaded := loads span
        grind
      omega
  | @miss cache next item rest hits absent loads loaded small later ih =>
    have now := lead 1
    have lead := fun span => lead (span + 1)
    simp only [needed_cons, needed_zero, absent, List.take_zero, List.not_mem_nil] at now lead
    have grown : ∀ span, needed next rest span ≤
        needed cache rest span + if item ∈ rest.take span then 1 else 0 :=
      fun _ => (needed_mono loads).trans (needed_insert absent).le
    cases farthest with
    | hit held' later' =>
      have earned : behind + hits ≤ ahead + 1 + _ := ih later' small fun span => by
        have leads := lead span
        have grown := grown span
        grind
      omega
    | miss absent' loads' later' =>
      refine ih later' small fun span => ?_
      have bound := needed_le_card span next item rest
      have leads := lead span
      have grown := grown span
      have loaded' := loads' span
      grind

lemma Demand.le_of_farthest (demand : Demand slots ∅ requests hits)
    (farthest : Farthest slots ∅ requests best) : hits ≤ best :=
  Nat.le_of_add_le_add_left
    (demand.le_farthest farthest (Nat.zero_le _) fun _ => le_rfl : 0 + hits ≤ 0 + best)

end Joshua.Foundation
