/-
Module: Joshua.Proofs.AdmissionRuns
Purpose: The counters of the admission gate over every interleaving of its
  requests: they are the numbers of permits and of parked requests, they stay
  within the limit and the queue depth, and nobody passes the queue.
Trusted boundary: none
-/
import Joshua.Model.Admission

namespace Joshua.Admission
open Joshua.Foundation

variable {gate : Gate} {state next : AdmissionState}

/-! ## What a locked section can do -/

lemma Gate.most_lt (gate : Gate) : gate.most < u64Limit := by
  simp only [Gate.most, Nat.max_lt]
  exact ⟨gate.limit.toNat_lt, by decide⟩

lemma Gate.deepest_lt (gate : Gate) : gate.deepest < u64Limit := by
  simp only [Gate.deepest, Nat.max_lt]
  exact ⟨gate.queueDepth.toNat_lt, by decide⟩

variable {outcome : Gate.Outcome} {poll : Gate.Poll}

lemma leave_eq_ok {result : Gate.Outcome} : Gate.leave state outcome = .ok (next, result) ↔
      0 < state.waiting ∧ next = { state with waiting := state.waiting - 1 } ∧
        result = outcome := by
  simp only [Gate.leave, map_eq_ok, u64Sub_eq_ok, Prod.mk.injEq]
  constructor
  · rintro ⟨_, ⟨pos, rfl⟩, rfl, rfl⟩
    exact ⟨pos, rfl, rfl⟩
  · rintro ⟨pos, rfl, rfl⟩
    exact ⟨_, ⟨pos, rfl⟩, rfl, rfl⟩

/-- What an arrival that ends as `outcome` did to the counters. -/
def Arrived (gate : Gate) (state next : AdmissionState) : Gate.Outcome → Prop
  | .admitted =>
    state.active < gate.most ∧ state.waiting = 0 ∧
      next = { state with active := state.active + 1 }
  | .refused _ => next = state
  | .parked _ =>
    state.waiting < gate.deepest ∧
      next = { state with waiting := state.waiting + 1 }

variable {wait started deadline now : Nanos}

lemma arrive_ok (returns : gate.arrive wait started poll state = .ok (next, outcome)) :
    Arrived gate state next outcome := by
  rw [Gate.arrive] at returns
  split_ifs at returns with free brief full
  · obtain ⟨active, added, same⟩ := map_eq_ok.mp returns
    obtain ⟨_, rfl⟩ := u64Add_eq_ok.mp added
    cases same
    exact ⟨free.1, free.2, rfl⟩
  · cases returns
    rfl
  · cases returns
    rfl
  · obtain ⟨waiting, added, rest⟩ := bind_eq_ok.mp returns
    obtain ⟨_, rfl⟩ := u64Add_eq_ok.mp added
    obtain ⟨deadline, _, rest⟩ := bind_eq_ok.mp rest
    split at rest
    · obtain ⟨_, rfl, rfl⟩ := leave_eq_ok.mp rest
      simp [Arrived]
    · cases rest
      exact ⟨not_le.mp full, rfl⟩

/-- What a waiter that looked again and ends as `outcome` did to the
counters. -/
def Woken (gate : Gate) (state next : AdmissionState) : Gate.Outcome → Prop
  | .admitted =>
    state.active < gate.most ∧
      next = { active := state.active + 1, waiting := state.waiting - 1 }
  | .refused _ => next = { state with waiting := state.waiting - 1 }
  | .parked _ => next = state

lemma wake_ok (returns : gate.wake wait deadline now poll state = .ok (next, outcome)) :
    Woken gate state next outcome := by
  rw [Gate.wake] at returns
  split_ifs at returns with free late
  · obtain ⟨_, rfl, rfl⟩ := leave_eq_ok.mp returns
    rfl
  · obtain ⟨active, added, rest⟩ := bind_eq_ok.mp returns
    obtain ⟨_, rfl⟩ := u64Add_eq_ok.mp added
    obtain ⟨_, rfl, rfl⟩ := leave_eq_ok.mp rest
    exact ⟨free, rfl⟩
  · split at returns
    · obtain ⟨_, rfl, rfl⟩ := leave_eq_ok.mp returns
      rfl
    · cases returns
      rfl

/-! ### No decrement at zero -/

lemma leave_returns (pos : 0 < state.waiting) : ∃ result, Gate.leave state outcome = .ok result :=
  ⟨_, leave_eq_ok.mpr ⟨pos, rfl, rfl⟩⟩

/-- An arrival takes off only what it has put on; its only fault is a
deadline the clock cannot represent. -/
lemma arrive_fault {fault : Fault} (fails : gate.arrive wait started poll state = .error fault) :
    fault = .overflow ∧ clockLimit ≤ started + wait := by
  rw [Gate.arrive] at fails
  split_ifs at fails with free brief full
  · have fits : state.active + 1 < u64Limit := lt_of_le_of_lt free.1 gate.most_lt
    simp [u64Add, fits, Except.map] at fails
  · have fits : state.waiting + 1 < u64Limit := lt_of_le_of_lt (not_le.mp full) gate.deepest_lt
    simp only [u64Add, fits, if_true, Except.bind, instantAdd] at fails
    by_cases small : started + wait < clockLimit
    · simp only [small, if_true] at fails
      split at fails
      · have pos : 0 < state.waiting + 1 := Nat.succ_pos _
        simp [Gate.leave, u64Sub_of_le pos, Except.map] at fails
      · cases fails
    · simp only [small, if_false, Except.error.injEq] at fails
      exact ⟨fails.symm, not_lt.mp small⟩

/-- A waiter's section returns, as long as it is counted. -/
lemma wake_returns (pos : 0 < state.waiting) :
    ∃ result, gate.wake wait deadline now poll state = .ok result := by
  rw [Gate.wake]
  split_ifs with free late
  · exact leave_returns pos
  · have fits : state.active + 1 < u64Limit := lt_of_le_of_lt free gate.most_lt
    simp only [u64Add, fits, if_true, Except.bind]
    exact leave_returns pos
  · split
    · exact leave_returns pos
    · exact ⟨_, rfl⟩

/-! ## The counters and the requests -/

variable {Request : Type} {system later : System Request}

/-- No request is in two places at once. -/
structure Apart (system : System Request) : Prop where
  holding_rechecking : ∀ request ∈ system.holding, request ∉ system.rechecking
  holding_parked : ∀ request ∈ system.holding, request ∉ system.parked
  rechecking_parked : ∀ request ∈ system.rechecking, request ∉ system.parked

/-- The counters are the numbers of requests in the three places, within
their bounds. -/
structure Balanced (gate : Gate) (system : System Request) : Prop where
  active : system.state.active = system.holding.card + system.rechecking.card
  active_le : system.state.active ≤ gate.most
  waiting : system.state.waiting = system.parked.card
  waiting_le : system.state.waiting ≤ gate.deepest

lemma init_apart : Apart (System.init : System Request) := by
  constructor <;> simp [System.init]

lemma init_balanced : Balanced gate (System.init : System Request) := by
  constructor <;> simp [System.init]

variable [DecidableEq Request]

lemma step_apart (step : Step gate system later) (apart : Apart system) : Apart later := by
  obtain ⟨first, second, third⟩ := apart
  cases step with
  | lowMemory | refused | waits => exact ⟨first, second, third⟩
  | admitted outside | parks outside =>
    obtain ⟨unparked, unchecked, unheld⟩ := outside
    constructor <;> grind
  | taken | expired | rechecked | rejected | drop => constructor <;> grind

lemma step_balanced (step : Step gate system later) (apart : Apart system)
    (balanced : Balanced gate system) : Balanced gate later := by
  obtain ⟨first, second, third⟩ := apart
  obtain ⟨active, active_le, waiting, waiting_le⟩ := balanced
  cases step with
  | lowMemory => exact ⟨active, active_le, waiting, waiting_le⟩
  | admitted outside _ returns =>
    obtain ⟨free, _, rfl⟩ := arrive_ok returns
    obtain ⟨_, _, unheld⟩ := outside
    constructor <;> grind
  | refused _ _ returns =>
    obtain rfl := arrive_ok returns
    exact ⟨active, active_le, waiting, waiting_le⟩
  | parks outside _ returns =>
    obtain ⟨room, rfl⟩ := arrive_ok returns
    obtain ⟨unparked, _, _⟩ := outside
    constructor <;> grind
  | taken mine returns =>
    obtain ⟨free, rfl⟩ := wake_ok returns
    constructor <;> grind
  | expired mine returns =>
    obtain rfl := wake_ok returns
    constructor <;> grind
  | waits _ returns =>
    obtain rfl := wake_ok returns
    exact ⟨active, active_le, waiting, waiting_le⟩
  | rechecked mine | rejected mine | drop mine =>
    have pos := Finset.card_pos.mpr ⟨_, mine⟩
    constructor <;> grind [giveBack]

/-! ## Whole runs -/

lemma reached_balanced (reached : Reached gate system) : Apart system ∧ Balanced gate system := by
  induction reached with
  | init => exact ⟨init_apart, init_balanced⟩
  | step _ step ih => exact ⟨step_apart step ih.1, step_balanced step ih.1 ih.2⟩

/-- After any interleaving of arrivals, waits, time-outs, cancellations,
memory rejections and drops: the counters are the numbers of permits and of
parked requests, within the limit and the queue depth; every section that
takes something off a counter finds it positive; and an arrival that is
admitted found nobody waiting. -/
theorem admission_counts_requests (reached : Reached gate system) :
    (system.state.active = system.holding.card + system.rechecking.card ∧
      system.state.active ≤ max gate.limit.toNat 1) ∧
    (system.state.waiting = system.parked.card ∧
      system.state.waiting ≤ max gate.queueDepth.toNat 1) ∧
    (∀ wait started poll, gate.arrive wait started poll system.state ≠ .error .underflow) ∧
    (∀ request ∈ system.parked, 0 < system.state.waiting ∧ ∀ wait deadline now poll, ∃ result,
        gate.wake wait deadline now poll system.state = .ok result) ∧
    (∀ request ∈ system.rechecking ∪ system.holding, 0 < system.state.active) ∧
    (∀ wait started poll next, gate.arrive wait started poll system.state = .ok (next, .admitted) →
        system.parked = ∅) := by
  obtain ⟨apart, balanced⟩ := reached_balanced reached
  refine ⟨⟨balanced.active, balanced.active_le⟩,
    ⟨balanced.waiting, balanced.waiting_le⟩, ?_, ?_, ?_, ?_⟩
  · intro wait started poll fails
    cases (arrive_fault fails).1
  · intro request mine
    have positive : 0 < system.state.waiting := by
      rw [balanced.waiting]
      exact Finset.card_pos.mpr ⟨request, mine⟩
    exact ⟨positive, fun _ _ _ _ => wake_returns positive⟩
  · intro request inside
    rw [balanced.active]
    rcases Finset.mem_union.mp inside with checks | holds
    · exact Nat.add_pos_right _ (Finset.card_pos.mpr ⟨request, checks⟩)
    · exact Nat.add_pos_left (Finset.card_pos.mpr ⟨request, holds⟩) _
  · intro wait started poll next returns
    obtain ⟨_, empty, _⟩ := arrive_ok returns
    rw [balanced.waiting] at empty
    exact Finset.card_eq_zero.mp empty

/-- A gate with one permit and one place in its queue. -/
def narrowGate : Gate := ⟨1, 1⟩

/-- One request holds the permit and a second one waits for it: the counters
say so, and a third one is not admitted. -/
theorem one_holds_one_waits : ∃ system : System Nat, Reached narrowGate system ∧
        system.holding = {0} ∧ system.parked = {1} ∧
        system.state.active = 1 ∧ system.state.waiting = 1 ∧
        ∀ wait started poll next, narrowGate.arrive wait started poll system.state ≠
            .ok (next, .admitted) := by
  have enough : checkAdmissionMemory none = .ok () := rfl
  have admits : narrowGate.arrive 5 0 ⟨false, 0⟩ ⟨0, 0⟩ = .ok (⟨1, 0⟩, .admitted) := rfl
  have holds : Reached narrowGate { (System.init : System Nat) with
        state := ⟨1, 0⟩
        holding := insert 0 ∅ } :=
    .step .init (.admitted (by simp [System.IsOutside, System.init]) enough admits)
  have parks : narrowGate.arrive 5 0 ⟨false, 0⟩ ⟨1, 0⟩ = .ok (⟨1, 1⟩, .parked 5) := rfl
  have second : System.IsOutside { (System.init : System Nat) with
        state := ⟨1, 0⟩
        holding := insert 0 ∅ } 1 := by
    simp [System.IsOutside, System.init]
  have reached := holds.step (.parks second enough parks)
  refine ⟨_, reached, rfl, rfl, ?_⟩
  obtain ⟨⟨active, _⟩, ⟨waiting, _⟩, _, _, _, nobody⟩ := admission_counts_requests reached
  refine ⟨active, waiting, ?_⟩
  intro wait started poll next returns
  exact absurd (nobody wait started poll next returns) (by decide)

end Joshua.Admission
