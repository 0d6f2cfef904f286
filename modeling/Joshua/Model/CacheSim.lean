/-
Module: Joshua.Model.CacheSim
Purpose: The replay of a routing trace against a cache of experts
  (`cache_sim.rs`), under LRU with and without the hot set and under Belady's
  policy.
Trusted boundary: the flattened sequence has fewer than 2 ^ 64 - 1 entries, so
  that `u64::MAX` is no position in it and no counter overflows
-/
import Joshua.Foundation.Collections
import Mathlib.Data.List.Sort
import Mathlib.Data.Prod.Lex
import Mathlib.Order.WithBot

namespace Joshua.CacheSim
open Joshua.Foundation

/-- A layer and an expert. -/
abbrev Key := Nat ×ₗ Nat

inductive Phase
  | prefill
  | decode
  deriving DecidableEq

structure Visit where
  chunk : Nat
  row : Nat
  expert : Nat

/-- `Call`: a forward pass with the visits of each layer. -/
structure Call where
  phase : Phase
  layers : List (List Visit)

/-- The key of a visit to the layer at an index, `l as u32`. -/
def Visit.key (l : Nat) (visit : Visit) : Key :=
  toLex (l % 2 ^ 32, visit.expert)

/-- `Trace::lookups`: for each layer and each of its chunks in order, the
distinct experts as first seen. -/
def lookups (call : Call) : List (List Key) :=
  call.layers.zipIdx.flatMap fun (visits, l) =>
    ((visits.map (·.chunk)).insertionSort (· ≤ ·)).dedup.map fun chunk =>
      ((visits.filter (·.chunk = chunk)).map (·.key l)).eraseDups

/-- The visits for which a number is greatest. -/
def lastBy (number : Visit → Nat) (visits : List Visit) : List Visit :=
  visits.filter fun visit => some (number visit) = (visits.map number).max?

/-- The keys of some visits to a layer, sorted and without duplicates. -/
def sortedKeys (l : Nat) (visits : List Visit) : List Key :=
  ((visits.map (·.key l)).insertionSort (· ≤ ·)).dedup

/-- `Trace::recorded`: what the hot set counts, for a prefill the last row of
each chunk. -/
def recorded (call : Call) : List (List Key) :=
  match call.phase with
  | .decode => lookups call
  | .prefill => call.layers.zipIdx.flatMap fun (visits, l) =>
      ((visits.map (·.chunk)).insertionSort (· ≤ ·)).dedup.map fun chunk =>
        sortedKeys l (lastBy (·.row) (visits.filter (·.chunk = chunk)))

/-- `Trace::prefill_seed`: the last row of the last chunk, by layer. -/
def prefillSeed (call : Call) : List (List Key) :=
  call.layers.zipIdx.map fun (visits, l) =>
    sortedKeys l (lastBy (·.row) (lastBy (·.chunk) visits))

/-- An event of the flattened sequence. -/
inductive Event
  | visit (decode inserts : Bool)
  | seed

def Event.inserts : Event → Bool
  | visit _ inserts => inserts
  | seed => true

def Event.isVisit : Event → Bool
  | visit _ _ => true
  | seed => false

/-- The lookups of a call. -/
def visits (prefillInserts : Bool) (call : Call) : List (Key × Event) :=
  let decode : Bool := call.phase = .decode
  (lookups call).flatten.map (·, .visit decode (decode || prefillInserts))

/-- The last row of a prefill seeds the pool. -/
def seeds (prefillInserts : Bool) (call : Call) : List (Key × Event) :=
  if call.phase = .prefill && !prefillInserts then (prefillSeed call).flatten.map (·, .seed)
  else []

def events (prefillInserts : Bool) (call : Call) : List (Key × Event) :=
  visits prefillInserts call ++ seeds prefillInserts call

/-- `Report`: lookups and hits, by phase. -/
structure Report where
  decodeVisits : Nat := 0
  decodeHits : Nat := 0
  prefillVisits : Nat := 0
  prefillHits : Nat := 0

def Report.count (report : Report) (hit : Bool) : Event → Report
  | .visit true _ => { report with
      decodeVisits := report.decodeVisits + 1
      decodeHits := report.decodeHits + hit.toNat }
  | .visit false _ => { report with
      prefillVisits := report.prefillVisits + 1
      prefillHits := report.prefillHits + hit.toNat }
  | .seed => report

/-- A replay: what it counts from a state on. -/
def replay {σ ε : Type} (hit : σ → ε → Bool) (step : σ → ε → σ) (event : ε → Event) :
    List ε → σ → Report
  | [], _ => {}
  | entry :: rest, state =>
    (replay hit step event rest (step state entry)).count (hit state entry) (event entry)

/-! ## LRU and the hot set -/

/-- `Lru::insert`; the keys are in the order of their clocks, the oldest
first.  Where every resident is hot, the key is refused. -/
def lruInsert (slots : Nat) (hot order : List Key) (key : Key) : List Key :=
  if key ∈ order then order.erase key ++ [key]
  else if slots = 0 then order
  else if slots ≤ order.length then
    match order.find? (· ∉ hot) with
    | some victim => order.erase victim ++ [key]
    | none => order
  else order ++ [key]

/-- `HotSet`: each recorded key with its hits and the step of its last use. -/
structure HotSet where
  used : List (Key × Nat × Nat) := []
  step : Nat := 0

def HotSet.recordKey (hot : HotSet) (key : Key) : HotSet :=
  match hot.used.find? (·.1 = key) with
  | some (_, hits, _) =>
      { hot with used := (key, hits + 1, hot.step) :: hot.used.filter (·.1 ≠ key) }
  | none => { hot with used := (key, 1, hot.step) :: hot.used }

/-- `HotSet::select`: by frequency, then by recency. -/
def HotSet.select (budget : Nat) (hot : HotSet) : List Key :=
  let before (a b : Key × Nat × Nat) : Prop :=
    b.2.1 < a.2.1 ∨ b.2.1 = a.2.1 ∧ (b.2.2 < a.2.2 ∨ b.2.2 = a.2.2 ∧ a.1 ≤ b.1)
  ((hot.used.insertionSort before).take budget).map Prod.fst

/-- `hot_experts::REFRESH_STEPS`. -/
def refreshSteps : Nat := 64

/-- What `simulate_lru` does for a call: a decode step begins, a key is looked
up or seeded, a group is recorded. -/
inductive Turn
  | beginDecode
  | look (key : Key) (event : Event)
  | record (keys : List Key)

def turns (prefillInserts : Bool) (call : Call) : List Turn :=
  (if call.phase = .decode then [.beginDecode] else []) ++
    ((visits prefillInserts call).map fun (key, event) => .look key event) ++
    (recorded call).map .record ++
    (seeds prefillInserts call).map fun (key, event) => .look key event

/-- `Lru` and `HotSet`. -/
structure Tier where
  order : List Key := []
  hot : List Key := []
  counters : HotSet := {}

def Tier.step (slots budget : Nat) (tier : Tier) : Turn → Tier
  | .beginDecode =>
      let counters := { tier.counters with step := tier.counters.step + 1 }
      if 0 < budget ∧ refreshSteps ∣ counters.step then
        let hot := counters.select budget
        ⟨hot.foldl (lruInsert slots hot) tier.order, hot, counters⟩
      else { tier with counters }
  | .look key event =>
      if key ∈ tier.order ∨ event.inserts then
        { tier with order := lruInsert slots tier.hot tier.order key }
      else tier
  | .record keys => { tier with counters := keys.foldl HotSet.recordKey tier.counters }

def Tier.hit (tier : Tier) : Turn → Bool
  | .look key _ => key ∈ tier.order
  | _ => false

def Turn.event : Turn → Event
  | look _ event => event
  | _ => .seed

/-- `simulate_lru`. -/
def simulateLru (slots budget : Nat) : List Turn → Tier → Report :=
  replay Tier.hit (Tier.step slots budget) Turn.event

/-! ## Belady -/

/-- The backward scan over the sequence: the next visit to every key from a
position on, and each event with the next visit to its key; `⊤` is none. -/
def nextUses : Nat → List (Key × Event) → (Key → WithTop Nat) × List (Key × Event × WithTop Nat)
  | _, [] => (fun _ => ⊤, [])
  | i, (key, event) :: rest =>
    let (seen, uses) := nextUses (i + 1) rest
    (if event.isVisit then Function.update seen key (.some i) else seen,
      (key, event, seen key) :: uses)

/-- The residents with their next uses. -/
abbrev Residents := List (Key × WithTop Nat)

/-- The loop of `simulate_belady`.  The victim is the last in the order of
`by_next`. -/
def beladyStep (slots : Nat) (resident : Residents) : Key × Event × WithTop Nat → Residents
  | (key, event, next) =>
    if key ∈ resident.map Prod.fst then (key, next) :: resident.filter (·.1 ≠ key)
    else if !event.inserts || slots = 0 || next = ⊤ then resident
    else if slots ≤ resident.length then
      match maxByKey? (fun entry => toLex (entry.2, entry.1)) resident with
      | none => resident
      | some victim => (key, next) :: resident.filter (·.1 ≠ victim.1)
    else (key, next) :: resident

inductive Policy
  | lru
  | lruHot (share : Nat × Nat)
  | belady

structure Config where
  slots : Nat
  prefillInserts : Bool

/-- The slots of the hot set; the product wraps. -/
def hotBudget (cfg : Config) (share : Nat × Nat) : Nat :=
  cfg.slots * share.1 % 2 ^ 64 / max share.2 1

def beladyReplay (slots : Nat) : List (Key × Event × WithTop Nat) → Residents → Report :=
  replay (fun resident entry => entry.1 ∈ resident.map Prod.fst) (beladyStep slots) (·.2.1)

def simulate (trace : List Call) (policy : Policy) (cfg : Config) : Report :=
  match policy with
  | .lru => simulateLru cfg.slots 0 (trace.flatMap (turns cfg.prefillInserts)) {}
  | .lruHot share =>
      simulateLru cfg.slots (hotBudget cfg share) (trace.flatMap (turns cfg.prefillInserts)) {}
  | .belady => beladyReplay cfg.slots (nextUses 0 (trace.flatMap (events cfg.prefillInserts))).2 []

end Joshua.CacheSim
