/-
Module: Joshua.Proofs.PartitionOrder
Purpose: The planner makes the same plan in whatever order the nodes, the
  tensors and the links are presented; when the monitor proposes a new plan,
  in terms of the observations made before.
Trusted boundary: none
-/
import Joshua.Proofs.PartitionPlan
import Mathlib.Data.String.Basic

namespace Joshua.Partition.RepartitionMonitor
open Joshua.Foundation List

variable {F : Type} [Float64 F]

/-! ## The accumulated times -/

/-- The nodes with accumulated times, in order. -/
def keys (times : List (String × F × F)) : List String :=
  times.map Prod.fst

variable {times : List (String × F × F)} {timings : List (RankTiming F)} {timing : RankTiming F}

lemma mem_keys_accumulate {key : String} :
    key ∈ keys (accumulate timing times) ↔ key = timing.nodeId ∨ key ∈ keys times := by
  induction times with
  | nil => simp [accumulate, keys]
  | cons entry rest ih =>
    obtain ⟨id, busy, wait⟩ := entry
    rw [accumulate]
    split_ifs with same before
    · simp [keys, same]
    · simp [keys]
    · simp only [keys, map_cons, mem_cons] at ih ⊢
      rw [ih, or_left_comm]

lemma keys_accumulate_sorted (sorted : (keys times).Pairwise (· < ·)) :
    (keys (accumulate timing times)).Pairwise (· < ·) := by
  induction times with
  | nil => exact pairwise_singleton _ _
  | cons entry rest ih =>
    obtain ⟨id, busy, wait⟩ := entry
    obtain ⟨first, later⟩ := pairwise_cons.mp sorted
    rw [accumulate]
    split_ifs with same before
    · exact sorted
    · refine pairwise_cons.mpr ⟨forall_mem_cons.mpr ⟨before, fun key further => ?_⟩, sorted⟩
      exact before.trans (first key further)
    · refine pairwise_cons.mpr ⟨?_, ih later⟩
      intro key inside
      rcases mem_keys_accumulate.mp inside with rfl | further
      · exact lt_of_le_of_ne (not_lt.mp before) (Ne.symm same)
      · exact first key further

/-- The node ids of timings. -/
def ids (timings : List (RankTiming F)) : List String :=
  timings.map RankTiming.nodeId

lemma keys_foldl_sorted (sorted : (keys times).Pairwise (· < ·)) :
    (keys (timings.foldl (fun times timing => accumulate timing times)
      times)).Pairwise (· < ·) := by
  induction timings generalizing times with
  | nil => exact sorted
  | cons timing rest ih => exact ih (keys_accumulate_sorted sorted)

lemma mem_keys_foldl {key : String} :
    key ∈ keys (timings.foldl (fun times timing => accumulate timing times) times) ↔
      key ∈ ids timings ∨ key ∈ keys times := by
  induction timings generalizing times with
  | nil => simp [ids]
  | cons timing rest ih =>
    rw [foldl_cons, ih, mem_keys_accumulate, ids, ids, map_cons, mem_cons, or_assoc, or_left_comm]

/-- Timings of different nodes, among them all that have times. -/
lemma ids_perm_foldl (sorted : (keys times).Pairwise (· < ·)) (nodup : (ids timings).Nodup)
    (within : ∀ key ∈ keys times, key ∈ ids timings) : (ids timings).Perm
      (keys (timings.foldl (fun times timing => accumulate timing times) times)) := by
  refine (perm_ext_iff_of_nodup nodup ((keys_foldl_sorted sorted).imp ne_of_lt)).mpr fun key => ?_
  rw [mem_keys_foldl, or_iff_left_of_imp (within key)]

/-! ## Valid timings -/

lemma validateTimingsFrom_nodup {seen : List String}
    (valid : validateTimingsFrom seen timings = .ok ()) :
    (ids timings).Nodup ∧ ∀ id ∈ ids timings, id ∉ seen := by
  induction timings generalizing seen with
  | nil => exact ⟨nodup_nil, nofun⟩
  | cons timing rest ih =>
    obtain ⟨_, fresh, valid⟩ := bind_eq_ok.mp valid
    iterate 2 obtain ⟨_, _, valid⟩ := bind_eq_ok.mp valid
    obtain ⟨nodup, others⟩ := ih valid
    have new : timing.nodeId ∉ seen := by simpa using Returns.ensure.post_of_eq_ok fresh
    constructor
    · refine nodup_cons.mpr ⟨fun inside => ?_, nodup⟩
      exact others _ inside mem_cons_self
    · refine forall_mem_cons.mpr ⟨new, fun id later mem => ?_⟩
      exact others id later (mem_cons_of_mem _ mem)

/-- The timings are valid and their imbalance is not within the threshold. -/
def Imbalanced (policy : RepartitionPolicy F) (timings : List (RankTiming F)) : Prop :=
  ∃ imbalance, loadImbalance timings = .ok imbalance ∧
    Float64.le imbalance policy.maxImbalance = false

variable {policy : RepartitionPolicy F}

lemma Imbalanced.ids_nodup (imbalanced : Imbalanced policy timings) : (ids timings).Nodup := by
  obtain ⟨_, valid, _⟩ := imbalanced
  obtain ⟨_, valid, _⟩ := bind_eq_ok.mp valid
  obtain ⟨_, _, valid⟩ := bind_eq_ok.mp valid
  exact (validateTimingsFrom_nodup valid).1

omit [Float64 F] in
/-- Timings of the participants that times were accumulated for. -/
lemma ids_perm_of_unchanged (nodup : (ids timings).Nodup)
    (same : participantsChanged times timings = false) : (ids timings).Perm (keys times) := by
  simp only [participantsChanged, Bool.or_eq_false_iff,
    any_eq_false, Bool.not_eq_true', ne_eq, decide_not,
    Bool.not_eq_false', decide_eq_true_eq, Bool.not_eq_false, contains_iff_mem] at same
  obtain ⟨size, known⟩ := same
  have subset : ids timings ⊆ keys times := by
    intro id inside
    obtain ⟨timing, mem, rfl⟩ := mem_map.mp inside
    exact known timing mem
  refine (subperm_of_subset nodup subset).perm_of_length_le ?_
  rw [keys, ids, length_map, length_map, size]

/-! ## One observation -/

/-- Everything an observation can do. -/
inductive Observes (monitor : RepartitionMonitor F) (window : Window F) :
    Except ObserveError (Option (Repartition F)) → RepartitionMonitor F → Prop
  | rejected (halt : Halt) : Observes monitor window (.error (.rejected halt)) monitor
  | balanced : Observes monitor window (.ok none) monitor.reset
  | overflowed : Observes monitor window (.error .overflowed) monitor.reset
  | counted (imbalanced : Imbalanced monitor.policy window.timings)
      (few : streakBefore monitor window + 1 < monitor.policy.sustainedWindows) :
      Observes monitor window (.ok none)
        { monitor with
          streak := streakBefore monitor window + 1
          accumulated := timesWith monitor window }
  | failed (halt : Halt) : Observes monitor window (.error (.replan halt)) monitor
  | proposed (imbalanced : Imbalanced monitor.policy window.timings)
      (enough : monitor.policy.sustainedWindows ≤
        streakBefore monitor window + 1) (repartition : Repartition F) :
      Observes monitor window (.ok (some repartition)) monitor.reset

lemma observe_observes (monitor : RepartitionMonitor F) (window : Window F) :
    Observes monitor window (monitor.observe window).1 (monitor.observe window).2 := by
  rw [observe]
  split
  next halt failed => exact .rejected halt
  next imbalance measured =>
    split
    next => exact .balanced
    next beyond =>
      have imbalanced : Imbalanced monitor.policy window.timings :=
        ⟨imbalance, measured, by simpa using beyond⟩
      split
      next => exact .overflowed
      next =>
        split
        next few => exact .counted imbalanced few
        next many =>
          split
          next halt failed => exact .failed halt
          next repartition _ => exact .proposed imbalanced (Nat.le_of_not_lt many) repartition

/-! ## Histories -/

/-- An observation and its result. -/
abbrev Event (F : Type) :=
  Window F × Except ObserveError (Option (Repartition F))

/-- Observations one after the other: the events and the monitor behind
them. -/
def observeAll (monitor : RepartitionMonitor F) :
    List (Window F) → List (Event F) × RepartitionMonitor F
  | [] => ([], monitor)
  | window :: rest =>
    let (result, next) := monitor.observe window
    let (events, last) := observeAll next rest
    ((window, result) :: events, last)

/-- The observation was recorded: it was not rejected, and if a plan was due
it did not fail. -/
def Recorded (event : Event F) : Bool :=
  match event.2 with
  | .error (.rejected _) => false
  | .error (.replan _) => false
  | _ => true

/-- The recorded observations end in as many imbalanced ones of the
participants that times are accumulated for as the streak counts. -/
structure Evidence (policy : RepartitionPolicy F) (events : List (Event F))
    (monitor : RepartitionMonitor F) : Prop where
  same : monitor.policy = policy
  few : monitor.streak < policy.sustainedWindows
  sorted : (keys monitor.accumulated).Pairwise (· < ·)
  recent : ∃ earlier recent, events.filter Recorded = earlier ++ recent ∧
      recent.length = monitor.streak ∧
      ∀ event ∈ recent, event.2 = .ok none ∧ Imbalanced policy event.1.timings ∧
        (ids event.1.timings).Perm (keys monitor.accumulated)

section Steps
variable {events : List (Event F)} {monitor : RepartitionMonitor F} {window : Window F}

section
variable (evidence : Evidence policy events monitor)
include evidence

lemma Evidence.reset (more : List (Event F)) : Evidence policy (events ++ more) monitor.reset where
  same := evidence.same
  few := lt_of_le_of_lt (Nat.zero_le _) evidence.few
  sorted := List.Pairwise.nil
  recent := ⟨(events ++ more).filter Recorded, [], (append_nil _).symm, rfl, nofun⟩

/-- The recent windows a new imbalanced one goes on with. -/
lemma Evidence.continued (imbalanced : Imbalanced policy window.timings) :
    (keys (timesWith monitor window)).Pairwise (· < ·) ∧
      (ids window.timings).Perm (keys (timesWith monitor window)) ∧
      ∃ earlier recent, events.filter Recorded = earlier ++ recent ∧
        recent.length = streakBefore monitor window ∧
        ∀ event ∈ recent, event.2 = .ok none ∧ Imbalanced policy event.1.timings ∧
          (ids event.1.timings).Perm (ids window.timings) := by
  have nodup := imbalanced.ids_nodup
  rw [timesWith, streakBefore]
  cases changed : participantsChanged monitor.accumulated window.timings with
  | true =>
    exact ⟨keys_foldl_sorted List.Pairwise.nil, ids_perm_foldl List.Pairwise.nil nodup nofun,
      events.filter Recorded, [], (append_nil _).symm, rfl, nofun⟩
  | false =>
    have members := ids_perm_of_unchanged nodup changed
    obtain ⟨earlier, recent, split, size, each⟩ := evidence.recent
    refine ⟨keys_foldl_sorted evidence.sorted,
      ids_perm_foldl evidence.sorted nodup fun _ => members.mem_iff.mpr,
      earlier, recent, split, size, ?_⟩
    intro event inside
    obtain ⟨result, beyond, perm⟩ := each event inside
    exact ⟨result, beyond, perm.trans members.symm⟩

/-- One observation keeps the evidence in step with the history. -/
lemma Evidence.step (window : Window F) :
    Evidence policy (events ++ [(window, (monitor.observe window).1)])
      (monitor.observe window).2 := by
  have observes := observe_observes monitor window
  generalize (monitor.observe window).1 = result at *
  generalize (monitor.observe window).2 = after at *
  -- an observation that is not recorded leaves history and monitor
  have unrecorded : ∀ outcome : Except ObserveError (Option (Repartition F)),
      Recorded (window, outcome) = false →
      Evidence policy (events ++ [(window, outcome)]) monitor := by
    intro outcome ignored
    refine { evidence with recent := ?_ }
    rw [filter_append, filter_cons_of_neg (by simp [ignored]), filter_nil, append_nil]
    exact evidence.recent
  cases observes with
  | rejected halt | failed halt => exact unrecorded _ rfl
  | balanced | overflowed | proposed imbalanced enough repartition => exact evidence.reset _
  | counted imbalanced few =>
    rw [evidence.same] at imbalanced few
    obtain ⟨sorted, perm, earlier, recent, split, size, each⟩ := evidence.continued imbalanced
    refine ⟨evidence.same, few, sorted, earlier, recent ++ [(window, .ok none)], ?_, ?_, ?_⟩
    · rw [filter_append, split, append_assoc]
      rfl
    · rw [length_append, size]
      rfl
    · refine forall_mem_append.mpr ⟨fun event before => ?_, forall_mem_singleton.mpr
        ⟨rfl, imbalanced, perm⟩⟩
      obtain ⟨result, beyond, others⟩ := each event before
      exact ⟨result, beyond, others.trans perm⟩

lemma Evidence.run (windows : List (Window F)) :
    Evidence policy (events ++ (observeAll monitor windows).1) (observeAll monitor windows).2 := by
  induction windows generalizing events monitor with
  | nil =>
    rw [observeAll, append_nil]
    exact evidence
  | cons window rest ih =>
    rw [observeAll, append_cons]
    exact ih (evidence.step window)

end

end Steps

lemma evidence_new {monitor : RepartitionMonitor F} (created : new policy = .ok monitor) :
    Evidence policy [] monitor := by
  obtain ⟨_, _, created⟩ := bind_eq_ok.mp created
  obtain ⟨_, pos, created⟩ := bind_eq_ok.mp created
  obtain ⟨_, _, created⟩ := bind_eq_ok.mp created
  cases created
  have several : 0 < policy.sustainedWindows := by simpa using Returns.ensure.post_of_eq_ok pos
  exact ⟨rfl, several, List.Pairwise.nil, [], [], rfl, rfl, nofun⟩

/-- After any observations: the streak is below the number of windows that a
proposal takes; a proposal ends that many imbalanced windows of the same
participants, which follow each other among the recorded observations; and
rejected observations and failed plans leave the monitor alone. -/
theorem observe_history (policy : RepartitionPolicy F) (monitor : RepartitionMonitor F)
    (created : new policy = .ok monitor) (windows : List (Window F)) (window : Window F) :
    (observeAll monitor windows).2.streak < policy.sustainedWindows ∧
    (∀ repartition, ((observeAll monitor windows).2.observe window).1 = .ok (some repartition) →
        Imbalanced policy window.timings ∧
        ∃ earlier recent, (observeAll monitor windows).1.filter Recorded = earlier ++ recent ∧
            recent.length + 1 = policy.sustainedWindows ∧
            ∀ event ∈ recent, event.2 = .ok none ∧ Imbalanced policy event.1.timings ∧
              (ids event.1.timings).Perm (ids window.timings)) ∧
    (∀ halt, ((observeAll monitor windows).2.observe window).1 = .error (.rejected halt) ∨
        ((observeAll monitor windows).2.observe window).1 = .error (.replan halt) →
        ((observeAll monitor windows).2.observe window).2 = (observeAll monitor windows).2) := by
  have evidence := (evidence_new created).run windows
  rw [nil_append] at evidence
  generalize observeAll monitor windows = reached at *
  have observes := observe_observes reached.2 window
  generalize reached.2.observe window = outcome at *
  obtain ⟨result, after⟩ := outcome
  refine ⟨evidence.few, ?_, ?_⟩
  · rintro repartition rfl
    cases observes with
    | proposed imbalanced enough repartition =>
      rw [evidence.same] at imbalanced enough
      obtain ⟨_, _, earlier, recent, split, size, each⟩ := evidence.continued imbalanced
      have few : streakBefore reached.2 window < policy.sustainedWindows := by
        rw [streakBefore]
        split
        · exact lt_of_le_of_lt (Nat.zero_le _) evidence.few
        · exact evidence.few
      exact ⟨imbalanced, earlier, recent, split, by omega, each⟩
  · rintro halt (rfl | rfl) <;> cases observes <;> rfl

/-! ## Two windows -/

/-- Two windows that are beyond one half for a proposal, which leaves the
weights. -/
def twoWindows : RepartitionPolicy Exact :=
  ⟨.rational (1 / 2), 2, .rational 1⟩

/-- Three nodes, one of which is busy four times as long as the others: the
scaled mean is one half and the imbalance one. -/
def slowWindow : Window Exact where
  timings := [⟨"a", .rational 1, .rational 3⟩, ⟨"b", .rational 1, .rational 3⟩,
    ⟨"c", .rational 4, .rational 0⟩]
  nodes := [⟨"a", 20, 10, .rational 1⟩, ⟨"b", 20, 10, .rational 1⟩, ⟨"c", 20, 10, .rational 1⟩]
  tensors := [⟨"t", 3, 32, 5⟩]
  links := []

/-- A window without timings. -/
def emptyWindow : Window Exact :=
  { slowWindow with timings := [] }

/-- The monitor behind one imbalanced window, also when a rejected one has
followed. -/
def slowMonitor : RepartitionMonitor Exact where
  policy := twoWindows
  streak := 1
  accumulated := [("a", .rational 1, .rational 3), ("b", .rational 1, .rational 3),
    ("c", .rational 4, .rational 0)]

lemma slow_counted : observe ⟨twoWindows, 0, []⟩ slowWindow = (.ok none, slowMonitor) := by
  decide +kernel

lemma empty_rejected : slowMonitor.observe emptyWindow =
    (.error (.rejected (.refused "no rank timings")), slowMonitor) := by
  decide +kernel

/-- One block of the tensor for every node. -/
def slowPlan : PartitionPlan where
  tensors := [⟨"t", [⟨0, "a", ⟨0, 1⟩, ⟨0, 32⟩, 5⟩, ⟨1, "b", ⟨1, 2⟩, ⟨32, 64⟩, 5⟩,
    ⟨2, "c", ⟨2, 3⟩, ⟨64, 96⟩, 5⟩]⟩]
  nodes := [⟨0, "a", 10, 5, 15⟩, ⟨1, "b", 10, 5, 15⟩, ⟨2, "c", 10, 5, 15⟩]

lemma slow_proposed : slowMonitor.observe slowWindow =
    (.ok (some ⟨slowWindow.nodes, slowPlan, .rational 1⟩), ⟨twoWindows, 0, []⟩) := by
  have planned : planPartition slowWindow.nodes slowWindow.tensors slowWindow.links =
      .ok slowPlan := by
    show planSorted (List.mergeSort _ _).get _ _ = _
    rw [slowWindow, List.mergeSort_of_pairwise (by decide)]
    decide +kernel
  let summed : List (RankTiming Exact) := [⟨"a", .rational 2, .rational 6⟩,
    ⟨"b", .rational 2, .rational 6⟩, ⟨"c", .rational 8, .rational 0⟩]
  have sums : timesWith slowMonitor slowWindow =
      summed.map fun timing => (timing.nodeId, timing.busySeconds, timing.waitSeconds) := by
    decide +kernel
  have weights : rebalanceWeights slowWindow.nodes summed twoWindows.maxWeightStep =
      .ok slowWindow.nodes := by
    decide +kernel
  have proposal : replan slowMonitor.policy (timesWith slowMonitor slowWindow) slowWindow =
      .ok ⟨slowWindow.nodes, slowPlan, .rational 1⟩ := by
    rw [sums]
    have imbalance : loadImbalance summed = .ok (.rational 1) := by decide +kernel
    refine bind_eq_ok.mpr ⟨_, imbalance, bind_eq_ok.mpr ⟨_, weights, ?_⟩⟩
    exact bind_eq_ok.mpr ⟨_, planned, rfl⟩
  have imbalance : loadImbalance slowWindow.timings = .ok (.rational 1) := by decide +kernel
  rw [observe, imbalance]
  simp only
  rw [if_neg (by decide +kernel), if_neg (by decide +kernel), if_neg (by decide +kernel)]
  rw [proposal]
  rfl

/-- An imbalanced window, a rejected one and another imbalanced one: the last
brings a proposal, and the first is the other recorded window it rests on. -/
theorem observe_history_of_proposal : new twoWindows = .ok ⟨twoWindows, 0, []⟩ ∧
    (slowMonitor.observe slowWindow).1 = .ok (some ⟨slowWindow.nodes, slowPlan, .rational 1⟩) ∧
    ∃ earlier recent, (observeAll ⟨twoWindows, 0, []⟩ [slowWindow, emptyWindow]).1.filter Recorded =
        earlier ++ recent ∧ recent.length = 1 ∧
      ∀ event ∈ recent, event.2 = .ok none ∧ Imbalanced twoWindows event.1.timings := by
  have created : new twoWindows = .ok ⟨twoWindows, 0, []⟩ := by decide +kernel
  have facts := observe_history twoWindows _ created [slowWindow, emptyWindow] slowWindow
  have proposed := congrArg Prod.fst slow_proposed
  simp only [observeAll, slow_counted, empty_rejected] at facts ⊢
  obtain ⟨_, earlier, recent, split, size, each⟩ := facts.2.1 _ proposed
  exact ⟨created, proposed, earlier, recent, split, Nat.succ.inj size,
    fun event inside => ⟨(each event inside).1, (each event inside).2.1⟩⟩

/-- A plan is proposed although of the last two observations, as many as a
proposal takes, the first was rejected. -/
theorem observe_proposes_after_rejection : twoWindows.sustainedWindows = 2 ∧
    (observeAll ⟨twoWindows, 0, []⟩ [slowWindow, emptyWindow, slowWindow]).1.map Prod.snd =
      [.ok none, .error (.rejected (.refused "no rank timings")),
        .ok (some ⟨slowWindow.nodes, slowPlan, .rational 1⟩)] := by
  simp only [observeAll, slow_counted, empty_rejected, slow_proposed]
  exact ⟨rfl, rfl⟩

end Joshua.Partition.RepartitionMonitor

namespace Joshua.Partition
open Joshua.Foundation List
open Function (update update_of_ne)

/-- The numbers are ordered, and `max` and `min` go by the order. -/
structure Ordered (F : Type) [Float64 F] [LinearOrder F] : Prop where
  max_eq : ∀ left right : F, Float64.max left right = max left right
  min_eq : ∀ left right : F, Float64.min left right = min left right

/-- Lists with the same items are sorted alike, where no two of the items are
tied. -/
lemma mergeSort_eq_of_perm {α : Type} {le : α → α → Bool}
    (trans : ∀ a b c, le a b = true → le b c = true → le a c = true)
    (total : ∀ a b, (le a b || le b a) = true) {items others : List α} (perm : items.Perm others)
    (apart : ∀ a ∈ items, ∀ b ∈ items, le a b = true → le b a = true → a = b) :
    items.mergeSort le = others.mergeSort le := by
  have sorted := (mergeSort_perm items le).trans (perm.trans (mergeSort_perm others le).symm)
  refine List.Perm.eq_of_pairwise ?_ (pairwise_mergeSort trans total items)
    (pairwise_mergeSort trans total others) sorted
  intro a b mem among
  exact apart a ((mergeSort_perm items le).mem_iff.mp mem) b
    (perm.mem_iff.mpr ((mergeSort_perm others le).mem_iff.mp among))

lemma mergeSort_nodes {F : Type} {nodes others : List (NodeCapacity F)}
    (perm : nodes.Perm others) (apart : ∀ a ∈ nodes, ∀ b ∈ nodes, a.id = b.id → a = b) :
    nodes.mergeSort (fun left right => left.id ≤ right.id) =
      others.mergeSort fun left right => left.id ≤ right.id := by
  refine mergeSort_eq_of_perm ?_ ?_ perm ?_
  · intro a b c first second
    simp only [decide_eq_true_eq] at *
    exact String.le_trans first second
  · intro a b
    simpa using String.le_total a.id b.id
  · intro a mem b among less more
    simp only [decide_eq_true_eq] at less more
    exact apart a mem b among (String.le_antisymm less more)

variable {tensors : List TensorWorkload}

/-- The order in which tensors are planned. -/
abbrev plansBefore (left right : TensorWorkload) : Bool :=
  right.bytesPerInputBlock < left.bytesPerInputBlock ||
    (left.bytesPerInputBlock = right.bytesPerInputBlock && left.id ≤ right.id)

lemma plansBefore_iff {left right : TensorWorkload} : plansBefore left right = true ↔
    right.bytesPerInputBlock.toNat < left.bytesPerInputBlock.toNat ∨
      left.bytesPerInputBlock.toNat = right.bytesPerInputBlock.toNat ∧ left.id ≤ right.id := by
  simp only [Bool.or_eq_true, Bool.and_eq_true, decide_eq_true_eq, UInt64.lt_iff_toNat_lt,
    ← UInt64.toNat_inj]

lemma mergeSort_tensors {others : List TensorWorkload} (perm : tensors.Perm others)
    (apart : ∀ a ∈ tensors, ∀ b ∈ tensors, a.id = b.id → a = b) :
    tensors.mergeSort plansBefore = others.mergeSort plansBefore := by
  refine mergeSort_eq_of_perm ?_ ?_ perm ?_
  · intro a b c first second
    rw [plansBefore_iff] at *
    rcases first with first | ⟨same, first⟩ <;> rcases second with second | ⟨also, second⟩
    · exact .inl (by omega)
    · exact .inl (by omega)
    · exact .inl (by omega)
    · exact .inr ⟨by omega, String.le_trans first second⟩
  · intro a b
    rw [Bool.or_eq_true, plansBefore_iff, plansBefore_iff]
    have either := String.le_total a.id b.id
    grind
  · intro a inside b among less more
    rw [plansBefore_iff] at less more
    refine apart a inside b among ?_
    rcases less with less | ⟨_, less⟩ <;> rcases more with more | ⟨_, more⟩
    · omega
    · omega
    · omega
    · exact String.le_antisymm less more

variable {F : Type} [Float64 F] {ranks : Nat} {nodes : Fin ranks → NodeCapacity F}

/-! ## Nodes and tensors -/

lemma nodeBudget_unique (rank : Fin ranks) :
    Returns (fun _ => rankOf nodes (nodes rank).id = some rank) (nodeBudget nodes rank) := by
  refine .bind .ensure ?_
  rintro ⟨⟩ _
  refine .bind .ensure ?_
  rintro ⟨⟩ found
  refine .bind .ensure ?_
  rintro ⟨⟩ _
  exact Returns.checkedSub.imp fun _ _ => of_decide_eq_true found

/-- The tensors seen so far have different ids. -/
structure Distinct (done : List TensorWorkload) (demand : Demand) : Prop where
  ids : demand.ids = (done.map TensorWorkload.id).reverse
  apart : (done.map TensorWorkload.id).Nodup

lemma addDemand_distinct {done : List TensorWorkload} {demand : Demand}
    {tensor : TensorWorkload} (nodup : Distinct done demand) :
    Returns (Distinct (done ++ [tensor])) (addDemand ranks demand tensor) := by
  refine .bind (validate_spec tensor) ?_
  rintro ⟨⟩ _
  refine .bind .ensure ?_
  rintro ⟨⟩ fresh
  refine .bind .ensure ?_
  rintro ⟨⟩ _
  refine .bind .checkedAdd ?_
  intro minimum _
  refine .bind .checkedMul ?_
  intro storage _
  refine .bind .checkedAdd ?_
  intro required _
  have unseen : tensor.id ∉ done.map TensorWorkload.id := by
    rw [nodup.ids] at fresh
    simpa using fresh
  constructor
  · show tensor.id :: demand.ids = _
    simp [nodup.ids]
  · rw [map_append]
    exact nodup.apart.append (nodup_singleton _) (by simpa using unseen)

variable {links others : List (LinkObservation F)} {plan : PartitionPlan}

/-- Where the sorted arguments make a plan, no two nodes and no two tensors
share an id. -/
lemma distinct_of_planSorted (planned : planSorted nodes tensors links = .ok plan) :
    (∀ rank j, (nodes rank).id = (nodes j).id → rank = j) ∧
      (tensors.map TensorWorkload.id).Nodup := by
  obtain ⟨budget, budgets, planned⟩ := bind_eq_ok.mp planned
  obtain ⟨scores, _, planned⟩ := bind_eq_ok.mp planned
  obtain ⟨demand, demanded, _⟩ := bind_eq_ok.mp planned
  have found := (Returns.forRanks nodeBudget_unique).post_of_eq_ok budgets
  have nodup := (Returns.foldlM (I := Distinct) ⟨rfl, nodup_nil⟩
    fun _ _ _ _ _ before => addDemand_distinct before).post_of_eq_ok demanded
  refine ⟨fun rank j same => ?_, nodup.apart⟩
  have both := found rank
  rw [same, found j] at both
  exact (Option.some.inj both).symm

/-! ## Links -/

section
variable (nodes : Fin ranks → NodeCapacity F)

/-- A link of two nodes of the cluster, with values that are accepted. -/
def Linked (link : LinkObservation F) : Prop :=
  ∃ source target, rankOf nodes link.fromId = some source ∧
    rankOf nodes link.toId = some target ∧ source ≠ target ∧
    validateLinkValues link = .ok ()

/-- The two ranks of a link, in their order. -/
def pairOf (link : LinkObservation F) : Option (Fin ranks × Fin ranks) := do
  let source ← rankOf nodes link.fromId
  let target ← rankOf nodes link.toId
  some (min source target, max source target)

/-- The worst latencies and bandwidths with those of one more link. -/
def noteLink (worst : (Fin ranks → F) × (Fin ranks → F)) (link : LinkObservation F)
    : (Fin ranks → F) × (Fin ranks → F) :=
  let noted (old : Fin ranks → F) (change : F → F) (rank : Fin ranks) : F :=
    if rankOf nodes link.fromId = some rank ∨ rankOf nodes link.toId = some rank then
      change (old rank)
    else old rank
  (noted worst.1 (Float64.max · link.latencySeconds),
    noted worst.2 (Float64.min · link.bandwidthBytesPerSecond))

end

/-- Two updates at different places, each from the value there. -/
lemma update_update_eq {β : Type} {source target : Fin ranks}
    (apart : source ≠ target) (values : Fin ranks → β) (change : β → β) :
    update (update values source (change (values source))) target
        (change (update values source (change (values source)) target)) =
      fun rank => if source = rank ∨ target = rank then change (values rank) else values rank := by
  funext rank
  rw [update_of_ne apart.symm]
  by_cases second : rank = target
  · subst second
    simp
  · by_cases first : rank = source
    · subst first
      simp [update_of_ne apart]
    · simp [update_of_ne second, update_of_ne first, Ne.symm first, Ne.symm second]

variable {known : LinkPenalties F ranks}

/-- A link is added where its nodes are known and different, the pair is new
and the values are accepted. -/
lemma addLink_eq_ok {next : LinkPenalties F ranks} {link : LinkObservation F} :
    addLink nodes known link = .ok next ↔
      Linked nodes link ∧ ∃ pair, pairOf nodes link = some pair ∧ pair ∉ known.seen ∧
        next = ⟨(noteLink nodes (known.latency, known.bandwidth) link).1,
          (noteLink nodes (known.latency, known.bandwidth) link).2, pair :: known.seen⟩ := by
  rw [addLink]
  cases source : rankOf nodes link.fromId with
  | none => simp [Linked, source]
  | some one =>
    cases target : rankOf nodes link.toId with
    | none => simp [Linked, target]
    | some j =>
      show (ensure _ _).bind _ = _ ↔ _
      simp only [bind_eq_ok, ensure_eq_ok, Bind.bind, Pure.pure, Except.pure]
      by_cases apart : one = j
      · subst apart
        simp [Linked, source, target]
      · have latency := update_update_eq apart known.latency (Float64.max · link.latencySeconds)
        have bandwidth := update_update_eq apart known.bandwidth
          (Float64.min · link.bandwidthBytesPerSecond)
        simp only [Linked, pairOf, noteLink, source, target, foldl_cons, foldl_nil,
          latency, bandwidth, Option.some.injEq]
        constructor
        · rintro ⟨_, _, _, fresh, ⟨⟩, valid, ⟨⟩⟩
          exact ⟨⟨one, j, rfl, rfl, apart, valid⟩, _, rfl, by simpa using fresh, rfl⟩
        · rintro ⟨⟨_, _, rfl, rfl, _, valid⟩, _, ⟨⟩, fresh, rfl⟩
          exact ⟨(), decide_eq_true apart, (), by simpa using fresh, (), valid, rfl⟩

/-- Links are taken in where each can be and no pair comes twice, and the
worst values are collected. -/
lemma foldlM_addLink_iff (apart : known.seen.Nodup) {latency bandwidth : Fin ranks → F} :
    (∃ seen, links.foldlM (addLink nodes) known = .ok ⟨latency, bandwidth, seen⟩) ↔
      (∀ link ∈ links, Linked nodes link) ∧
        (links.map (pairOf nodes) ++ known.seen.map some).Nodup ∧
        links.foldl (noteLink nodes) (known.latency, known.bandwidth) = (latency, bandwidth) := by
  induction links generalizing known with
  | nil =>
    have once : (known.seen.map some).Nodup := apart.map (Option.some_injective _)
    constructor
    · rintro ⟨seen, ⟨⟩⟩
      exact ⟨nofun, once, rfl⟩
    · rintro ⟨_, _, ⟨⟩⟩
      exact ⟨known.seen, rfl⟩
  | cons link links ih =>
    simp only [foldlM_cons, foldl_cons, map_cons, cons_append]
    constructor
    · rintro ⟨seen, folded⟩
      obtain ⟨next, added, rest⟩ := bind_eq_ok.mp folded
      obtain ⟨linked, pair, found, fresh, rfl⟩ := addLink_eq_ok.mp added
      obtain ⟨others, nodup, collected⟩ := (ih (nodup_cons.mpr ⟨fresh, apart⟩)).mp ⟨seen, rest⟩
      rw [found]
      exact ⟨forall_mem_cons.mpr ⟨linked, others⟩, nodup_middle.mp nodup, collected⟩
    · rintro ⟨each, nodup, collected⟩
      obtain ⟨linked, others⟩ := forall_mem_cons.mp each
      obtain ⟨one, j, source, target, _, _⟩ := id linked
      have found : pairOf nodes link = some (min one j, max one j) := by
        simp [pairOf, source, target]
      rw [found] at nodup
      have fresh : (min one j, max one j) ∉ known.seen := fun mem =>
        (nodup_cons.mp nodup).1 (mem_append_right _ (mem_map_of_mem mem))
      have added := addLink_eq_ok.mpr ⟨linked, _, found, fresh, rfl⟩
      obtain ⟨seen, rest⟩ := (@ih ⟨_, _, _⟩ (nodup_cons.mpr ⟨fresh, apart⟩)).mpr
        ⟨others, nodup_middle.mpr nodup, collected⟩
      exact ⟨seen, bind_eq_ok.mpr ⟨_, added, rest⟩⟩

variable [LinearOrder F]

section
variable (ordered : Ordered F)
include ordered

/-- The worst of two links does not depend on which comes first. -/
lemma noteLink_comm (worst : (Fin ranks → F) × (Fin ranks → F)) (link other : LinkObservation F) :
    noteLink nodes (noteLink nodes worst link) other =
      noteLink nodes (noteLink nodes worst other) link := by
  simp only [noteLink, ordered.max_eq, ordered.min_eq]
  refine Prod.ext (funext fun rank => ?_) (funext fun rank => ?_)
  · dsimp only
    split_ifs <;> first | rfl | exact max_right_comm _ _ _
  · dsimp only
    split_ifs <;> first | rfl | exact min_right_comm _ _ _

lemma speedScores_perm {budget : Fin ranks → Nat} (perm : links.Perm others)
    {scores : Fin ranks → F} (scored : speedScores nodes budget links = .ok scores) :
    speedScores nodes budget others = .ok scores := by
  obtain ⟨⟨latency, bandwidth, seen⟩, folded, rest⟩ := bind_eq_ok.mp scored
  obtain ⟨each, nodup, collected⟩ := (foldlM_addLink_iff nodup_nil).mp ⟨seen, folded⟩
  have same : others.foldl (noteLink nodes) _ = _ :=
    (perm.foldl_eq' (fun x _ y _ z => noteLink_comm ordered z x y) _).symm.trans collected
  obtain ⟨seenToo, foldedToo⟩ := (foldlM_addLink_iff nodup_nil).mpr
    ⟨fun link inside => each link (perm.mem_iff.mpr inside),
      ((perm.map (pairOf nodes)).append_right _).nodup_iff.mp nodup, same⟩
  exact bind_eq_ok.mpr ⟨_, foldedToo, rest⟩

/-! ## The plan -/

lemma planSorted_perm (perm : links.Perm others)
    (planned : planSorted nodes tensors links = .ok plan) :
    planSorted nodes tensors others = .ok plan := by
  obtain ⟨budget, budgets, rest⟩ := bind_eq_ok.mp planned
  obtain ⟨scores, scored, rest⟩ := bind_eq_ok.mp rest
  exact bind_eq_ok.mpr ⟨budget, budgets,
    bind_eq_ok.mpr ⟨scores, speedScores_perm ordered perm scored, rest⟩⟩

lemma planPartition_ok_of_perm {nodes nodes' : List (NodeCapacity F)}
    {tensors' : List TensorWorkload} {links' : List (LinkObservation F)}
    (sameNodes : nodes.Perm nodes') (sameTensors : tensors.Perm tensors')
    (sameLinks : links.Perm links') (planned : planPartition nodes tensors links = .ok plan) :
    planPartition nodes' tensors' links' = .ok plan := by
  obtain ⟨_, someNode, planned⟩ := bind_eq_ok.mp planned
  obtain ⟨_, someTensor, planned⟩ := bind_eq_ok.mp planned
  dsimp only at planned
  obtain ⟨nodesApart, tensorsApart⟩ := distinct_of_planSorted planned
  have nodesSorted := mergeSort_nodes sameNodes ?_
  have tensorsSorted := mergeSort_tensors sameTensors ?_
  · rw [ensure_eq_ok, decide_eq_true_eq] at someNode someTensor
    refine bind_eq_ok.mpr ⟨(), ensure_eq_ok.mpr ?_, bind_eq_ok.mpr ⟨(), ensure_eq_ok.mpr ?_, ?_⟩⟩
    · exact decide_eq_true fun empty => someNode (empty ▸ sameNodes).eq_nil
    · exact decide_eq_true fun empty => someTensor (empty ▸ sameTensors).eq_nil
    · dsimp only
      rw [← nodesSorted, ← tensorsSorted]
      exact planSorted_perm ordered sameLinks planned
  · intro a inside b among same
    exact inj_on_of_nodup_map tensorsApart (mem_mergeSort.mpr inside) (mem_mergeSort.mpr among) same
  · intro a inside b among same
    obtain ⟨rank, here⟩ := get_of_mem (mem_mergeSort.mpr inside)
    obtain ⟨j, there⟩ := get_of_mem (mem_mergeSort.mpr among)
    rw [← here, ← there] at same
    rw [← here, ← there, nodesApart rank j same]

end

/-- For every permutation of the nodes, the tensors and the links, and for
numbers with any order and any other operations: the planner makes the same
plan, or fails for both. -/
theorem planPartition_perm (ordered : Ordered F) {nodes nodes' : List (NodeCapacity F)}
    {tensors tensors' : List TensorWorkload} {links links' : List (LinkObservation F)}
    (sameNodes : nodes.Perm nodes') (sameTensors : tensors.Perm tensors')
    (sameLinks : links.Perm links') (plan : PartitionPlan) :
    planPartition nodes tensors links = .ok plan ↔
      planPartition nodes' tensors' links' = .ok plan :=
  ⟨planPartition_ok_of_perm ordered sameNodes sameTensors sameLinks,
    planPartition_ok_of_perm ordered sameNodes.symm sameTensors.symm sameLinks.symm⟩

/-- Two linked nodes that are presented the other way round. -/
theorem planPartition_perm_of_two :
    planPartition pairNodes.reverse [⟨"t", 4, 32, 5⟩] [⟨"a", "b", .rational 0, .rational 1⟩] =
      .ok pairPlan := by
  refine (planPartition_perm ⟨fun _ _ => rfl, fun _ _ => rfl⟩ (reverse_perm _).symm (.refl _)
    (.refl _) _).mp ?_
  show planSorted (List.mergeSort _ _).get _ _ = _
  rw [pairNodes, mergeSort_of_pairwise (by decide)]
  decide +kernel

end Joshua.Partition
