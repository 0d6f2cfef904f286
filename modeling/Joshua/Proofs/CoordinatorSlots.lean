/-
Module: Joshua.Proofs.CoordinatorSlots
Purpose: The counters of the router follow the guards in every step and over
  every interleaving of picks, drops and probes, audio requests are alone on
  their worker, and a configured cap is kept where the loads can be added up.
Trusted boundary: none
-/
import Joshua.Model.Coordinator

namespace Joshua.Coordinator
open Joshua.Foundation Worker
open Function (forall_update_iff update_of_ne update_self)

variable {cap : Nat} {n : Nat} {R : Type} {i : Fin n} {change : Worker → Worker}
  {config : CoordinatorConfig}

section

/-! ## The counters of a worker and who holds them -/

/-- The counters a guard is counted in. -/
inductive Counter
  | slots
  | requests (model : String)
  | work (model : String)
  | audio

namespace Counter

/-- What the worker's counter says. -/
def value (worker : Worker) : Counter → Nat
  | slots => worker.dispatched
  | requests model => worker.dispatchedByModel.read model
  | work model => worker.workByModel.read model
  | audio => worker.audioDispatched

/-- What a guard contributes, given how far its drop has come. -/
def weight (held : Held n) : Counter → Nat
  | slots => if held.phase = .droppingAudio then 0 else 1
  | requests model => if held.guard.model = some model ∧ held.phase = .live then 1 else 0
  | work model =>
    if held.guard.model = some model ∧ (held.phase = .live ∨ held.phase = .droppingWork) then
      held.guard.work
    else 0
  | audio => if held.guard.audio then 1 else 0

/-- What a guard contributes to the counter of one worker. -/
def weightAt (counter : Counter) (index : Fin n) (held : Held n) : Nat :=
  if held.guard.index = index then counter.weight held else 0

end Counter

/-- A change of a worker takes something off every counter, as far as that is
in it, and adds something. -/
def Moves (change : Worker → Worker) (worker : Worker) (lost gained : Counter → Nat) : Prop :=
  ∀ counter, lost counter ≤ counter.value worker →
    counter.value (change worker) + lost counter = counter.value worker + gained counter

/-- Every counter is the sum over the guards that are counted in it. -/
def Balanced (system : System n R) : Prop :=
  ∀ index counter, Counter.value (system.workers index) counter =
    share (counter.weightAt index) system.held

lemma init_balanced : Balanced (System.init : System n R) := by
  intro i counter
  cases counter with
  | slots => rfl
  | requests model | work model => exact Counts.read_empty model
  | audio => rfl

section Exchange
variable {system : System n R} {before after held : List (Held n)} {picking : Option (Picking n R)}

lemma exchange_value (counter : Counter) (j : Fin n) : Counter.value
        ((system.exchange i change held picking).workers j) counter =
      if j = i then
        Counter.value (change (system.workers i)) counter
      else Counter.value (system.workers j) counter := by
  rw [System.exchange]
  dsimp only
  split
  next same => rw [same, update_self]
  next different => rw [update_of_ne different]

variable {new old : Held n}

section
variable (balanced : Balanced system)
include balanced

/-- A guard is made and every counter raised by what it contributes. -/
lemma Balanced.add (place : new.guard.index = i)
    (raised : ∀ counter, Counter.value (change (system.workers i)) counter =
      Counter.value (system.workers i) counter + counter.weight new) :
    Balanced (system.exchange i change (new :: system.held) picking) := by
  intro j counter
  rw [exchange_value, System.exchange, share_cons, ← balanced j counter, Counter.weightAt, place]
  by_cases same : j = i
  · rw [if_pos same, if_pos same.symm, same, raised counter, add_comm]
  · rw [if_neg same, if_neg (Ne.symm same), zero_add]

section
variable (has : system.held = before ++ old :: after) (oldPlace : old.guard.index = i)
include has oldPlace

/-- A guard goes, something takes its place and every counter follows. -/
lemma Balanced.follow (made : Counter → Nat)
    (kept : ∀ counter j, share (counter.weightAt j) held =
      (if i = j then made counter else 0) + share (counter.weightAt j) (before ++ after))
    (moved : Moves change (system.workers i) (Counter.weight old) made) :
    Balanced (system.exchange i change held picking) := by
  intro j counter
  have total := balanced j counter
  rw [has, share_split, Counter.weightAt, oldPlace] at total
  rw [exchange_value, System.exchange, kept]
  by_cases same : j = i
  · subst same
    rw [if_pos rfl] at total ⊢
    have balance := moved counter (by omega)
    rw [if_pos rfl]
    omega
  · rw [if_neg (Ne.symm same), zero_add] at total ⊢
    rw [if_neg same]
    exact total

/-- A guard moves on and every counter follows. -/
lemma Balanced.replace (newPlace : new.guard.index = i)
    (moved : Moves change (system.workers i) (Counter.weight old) (Counter.weight new)) :
    Balanced (system.exchange i change (before ++ new :: after) picking) :=
  balanced.follow has oldPlace (Counter.weight new)
    (fun _ _ => by rw [share_split, Counter.weightAt, newPlace]) moved

/-- A guard goes and every counter is lowered by what it contributed. -/
lemma Balanced.remove
    (lowered : Moves change (system.workers i) (Counter.weight old) fun _ => 0) :
    Balanced (system.exchange i change (before ++ after) picking) :=
  balanced.follow has oldPlace (fun _ => 0) (fun _ _ => by rw [ite_self, zero_add]) lowered

end

/-- A change of the registry leaves the counters alone. -/
lemma Balanced.registry
    (same : ∀ counter, Counter.value (change (system.workers i)) counter =
      Counter.value (system.workers i) counter) :
    Balanced (system.exchange i change system.held picking) := by
  intro j counter
  rw [exchange_value]
  split
  next here => rw [same counter, ← here]; exact balanced j counter
  next => exact balanced j counter

end

end Exchange

/-! ## Room for one more -/

/-- Room below a configured cap. -/
lemma dispatched_lt_cap {slots load : Nat} {worker : Worker} {info : WorkerInfo}
    {own : Option ModelSlots} (configured : config.workerSlots = some cap)
    (fits : worker.dispatched + worker.status.externalInFlight < u64Limit)
    (room : worker.slotsAndLoad config info own = some (slots, load)) (below : load < slots) :
    worker.dispatched < max cap 1 := by
  suffices worker.dispatched + worker.status.externalInFlight < max cap 1 from
    lt_of_le_of_lt (Nat.le_add_right _ _) this
  cases own with
  | none =>
    rw [slotsAndLoad] at room
    obtain ⟨rfl, rfl⟩ := Prod.mk.inj (Option.some.inj room)
    rw [CoordinatorConfig.slotsFor, configured, wrapAdd_of_lt fits] at below
    exact below
  | some figures =>
    rw [slotsAndLoad, configured, wrapAdd_of_lt fits] at room
    split at room
    · cases room
    next free =>
      rw [Option.any_some, decide_eq_true_eq, not_le] at free
      exact free

/-- What a round of the loop can do to the best worker so far: nothing, or put
its own worker there, which is healthy, not excluded and has room. -/
lemma look_cases [RatioOps R] (config : CoordinatorConfig) (args : PickArgs n) (i : Fin n)
    (worker : Worker) (scan : Scan n R) :
    (look config args i worker scan).best = scan.best ∨
      ∃ info own slots load best, worker.status.info = some info ∧
        worker.status.healthy = true ∧ i ∉ args.exclude ∧
        worker.slotsAndLoad config info own = some (slots, load) ∧
        load < slots ∧ best.index = i ∧
        (look config args i worker scan).best = some best := by
  cases reported : worker.status.info with
  | none =>
    left
    rw [look, reported]
  | some info =>
    rw [look, reported]
    dsimp only
    split
    · exact .inl rfl
    split
    · exact .inl rfl
    split
    · exact .inl rfl
    next healthy =>
      split
      · exact .inl rfl
      next fresh =>
        split
        · exact .inl rfl
        next slots load room =>
          split
          · exact .inl rfl
          next below =>
            split
            · right
              refine ⟨info, _, slots, load, _, rfl, by simpa using healthy,
                by simpa using fresh, room, not_le.mp below, ?_, rfl⟩
              rfl
            · exact .inl rfl

/-- An audio pick takes a worker without audio, below a configured cap. -/
lemma lookAudio_takes {exclude : List (Fin n)} {worker : Worker} {scan next : AudioScan}
    (takes : lookAudio config exclude i worker scan = (next, true)) :
    i ∉ exclude ∧ worker.audioDispatched = 0 ∧ ∀ cap, config.workerSlots = some cap →
        worker.dispatched + worker.status.externalInFlight < u64Limit →
        worker.dispatched < max cap 1 := by
  rw [lookAudio] at takes
  cases reported : worker.status.info with
  | none =>
    rw [reported] at takes
    cases takes
  | some info =>
    rw [reported] at takes
    dsimp only at takes
    split_ifs at takes with _ fresh quiet free <;> cases takes
    refine ⟨by simpa using fresh, ?_, ?_⟩
    · rw [satAdd] at quiet
      simp only [u64Limit] at quiet
      omega
    · intro cap configured fits
      rw [configured, wrapAdd_of_lt fits] at free
      simp only [Option.any_some, decide_eq_true_eq, not_le] at free
      exact lt_of_le_of_lt (Nat.le_add_right _ _) free

/-- The load of every worker can be added up. -/
def Fits (system : System n R) : Prop :=
  ∀ index, (system.workers index).dispatched +
    (system.workers index).status.externalInFlight < u64Limit

/-- Under a configured cap: no worker has more slots out than the cap, and a
worker a pick has settled for has room for one more. -/
structure Capped (cap : Nat) (system : System n R) : Prop where
  within : ∀ index, (system.workers index).dispatched ≤ max cap 1
  promised : ∀ args start looked scan best,
    system.picking = some (.generation args start looked scan) →
    scan.best = some best →
    (system.workers best.index).dispatched < max cap 1

lemma init_capped (cap : Nat) : Capped cap (System.init : System n R) where
  within := fun _ => Nat.zero_le _
  promised := by
    intro args start looked scan best mine
    cases mine

section Cap
variable {system : System n R} {held : List (Held n)}

/-- Slots are given back, or the registry changes: the cap is kept. -/
lemma Capped.lower (capped : Capped cap system)
    (lower : (change (system.workers i)).dispatched ≤ (system.workers i).dispatched) :
    Capped cap (system.exchange i change held system.picking) := by
  have less : ∀ j, ((system.exchange i change held system.picking).workers
        j).dispatched ≤ (system.workers j).dispatched :=
    (forall_update_iff system.workers fun j worker =>
      worker.dispatched ≤ (system.workers j).dispatched).mpr ⟨lower, fun _ _ => le_rfl⟩
  exact
    { within := fun j => le_trans (less j) (capped.within j)
      promised := fun args start looked scan best mine found =>
        lt_of_le_of_lt (less best.index) (capped.promised args start looked scan best mine found) }

/-- A slot is taken where there is room; the pick is over. -/
lemma Capped.take (capped : Capped cap system)
    (room : (system.workers i).dispatched < max cap 1)
    (raise : (change (system.workers i)).dispatched = (system.workers i).dispatched + 1) :
    Capped cap (system.exchange i change held none) where
  within :=
    (forall_update_iff system.workers fun _ worker => worker.dispatched ≤ max cap 1).mpr
      ⟨raise ▸ room, fun j _ => capped.within j⟩
  promised := by
    intro args start looked scan best mine
    cases mine

/-- A pick moves on without promising a worker. -/
lemma Capped.repick {picking : Option (Picking n R)} (capped : Capped cap system)
    (promised : ∀ args start looked scan best, picking = some (.generation args start looked scan) →
      scan.best = some best →
      (system.workers best.index).dispatched < max cap 1) :
    Capped cap { system with picking := picking } where
  within := capped.within
  promised := promised

end Cap

/-! ## One step -/

variable [NeZero n] [RatioOps R] {system later : System n R}

lemma step_balanced (step : Step config system later)
    (balanced : Balanced system) : Balanced later := by
  cases step with
  | pickStart start free kind | pickLook mine more => exact balanced
  | pickCommit mine found =>
    refine balanced.add rfl fun counter => ?_
    cases counter <;> simp [Counter.value, Counter.weight, reserve, Counts.read_add, eq_comm]
  | pickFail mine missed | audioStart start free
  | audioLook mine more skips => exact balanced
  | audioTake mine more takes =>
    refine balanced.add rfl fun counter => ?_
    cases counter <;> simp [Counter.value, Counter.weight, reserveAudio]
  | audioFail mine => exact balanced
  | @dropCount before after guard model has names
  | @dropWork before after guard model has names =>
    refine balanced.replace has rfl rfl fun counter enough => ?_
    cases counter with
    | requests j | work j =>
      simp only [Counter.value, Counter.weight, dropCount, dropWork,
        Counts.read_sub, names, Option.some.injEq] at enough ⊢
      by_cases same : model = j
      · subst same
        simp at enough ⊢ <;> omega
      · simp [same, Ne.symm same]
    | _ => simp [Counter.value, Counter.weight, dropCount, dropWork]
  | dropUnnamed has unnamed =>
    refine balanced.replace has rfl rfl fun counter _ => ?_
    cases counter <;> simp [Counter.value, Counter.weight, unnamed]
  | dropSlot has silent =>
    apply balanced.remove has rfl
    intro counter enough
    cases counter with
    | slots =>
      simp [Counter.value, Counter.weight, dropSlot] at enough ⊢
      omega
    | _ => simp [Counter.value, Counter.weight, dropSlot, silent]
  | dropAudioSlot has sounds =>
    refine balanced.replace has rfl rfl fun counter enough => ?_
    cases counter with
    | slots =>
      simp [Counter.value, Counter.weight, dropSlot] at enough ⊢
      omega
    | _ => simp [Counter.value, Counter.weight, dropSlot]
  | dropAudio has sounds =>
    apply balanced.remove has rfl
    intro counter enough
    cases counter with
    | audio =>
      simp only [Counter.value, Counter.weight, dropAudio, sounds, if_true] at enough ⊢
      omega
    | _ => simp [Counter.value, Counter.weight, dropAudio]
  | probe i report own | markUnhealthy i =>
    apply balanced.registry
    intro counter
    cases counter <;> rfl

lemma step_capped (configured : config.workerSlots = some cap) (step : Step config system later)
    (fits : Fits system) (capped : Capped cap system) : Capped cap later := by
  cases step with
  | pickStart start free kind =>
    apply capped.repick
    rintro args start looked scan best ⟨⟩ found
    cases found
  | @pickLook args start looked scan mine more =>
    apply capped.repick
    rintro _ _ _ _ best ⟨⟩ found
    rcases look_cases config args (System.rotated start looked)
      (system.workers (System.rotated start looked)) scan with
      kept | ⟨info, own, slots, load, here, _, _, _, room, below, place, new⟩
    · rw [kept] at found
      exact capped.promised args start looked scan best mine found
    · rw [new] at found
      rw [← Option.some.inj found, place]
      exact dispatched_lt_cap configured (fits _) room below
  | pickCommit mine found => exact capped.take (capped.promised _ _ _ _ _ mine found) rfl
  | pickFail mine missed | audioStart start free | audioLook mine more skips =>
    apply capped.repick
    rintro _ _ _ _ _ ⟨⟩
  | audioTake mine more takes =>
    obtain ⟨_, _, room⟩ := lookAudio_takes takes
    exact capped.take (room cap configured (fits _)) rfl
  | audioFail mine =>
    apply capped.repick
    rintro _ _ _ _ _ ⟨⟩
  | dropCount has names | dropWork has names | dropUnnamed has unnamed =>
    exact capped.lower le_rfl
  | dropSlot has silent | dropAudioSlot has sounds => exact capped.lower (Nat.sub_le _ _)
  | dropAudio has sounds | probe i report own | markUnhealthy i =>
    exact capped.lower le_rfl

/-- No worker has two audio requests out. -/
def SingleAudio (system : System n R) : Prop :=
  ∀ index, (system.workers index).audioDispatched ≤ 1

omit [NeZero n] [RatioOps R] in
lemma SingleAudio.exchange {held : List (Held n)} {picking : Option (Picking n R)}
    (single : SingleAudio system) (still : (change (system.workers i)).audioDispatched ≤ 1) :
    SingleAudio (system.exchange i change held picking) :=
  (forall_update_iff system.workers fun _ worker => worker.audioDispatched ≤ 1).mpr
    ⟨still, fun j _ => single j⟩

lemma step_singleAudio (step : Step config system later)
    (single : SingleAudio system) : SingleAudio later := by
  cases step with
  | pickStart start free kind | pickLook mine more => exact single
  | pickCommit mine found => exact single.exchange (single _)
  | pickFail mine missed | audioStart start free
  | audioLook mine more skips => exact single
  | audioTake mine more takes =>
    obtain ⟨_, silent, _⟩ := lookAudio_takes takes
    apply single.exchange
    rw [reserveAudio, silent]
  | audioFail mine => exact single
  | dropCount has names | dropWork has names | dropUnnamed has unnamed
  | dropSlot has silent | dropAudioSlot has sounds => exact single.exchange (single _)
  | dropAudio has sounds => exact single.exchange (le_trans (Nat.sub_le _ _) (single _))
  | probe i report own | markUnhealthy i => exact single.exchange (single _)

end

open Counter (value weight weightAt)

/-! ## Live guards -/

section Live

/-- The live guards of a worker. -/
def live (system : System n R) (index : Fin n) : List (SlotGuard n) :=
  (system.held.filter fun held => held.guard.index = index && held.phase = .live).map Held.guard

/-- No guard of the worker is in the middle of its drop. -/
def Quiet (system : System n R) (index : Fin n) : Prop :=
  ∀ held ∈ system.held, held.guard.index = index → held.phase = .live

/-- The live guards of a worker that satisfy a condition are the guards that
count for it and satisfy it. -/
lemma share_live (system : System n R) (i : Fin n)
    (keeps : SlotGuard n → Bool) (weight : SlotGuard n → Nat) :
    share weight ((live system i).filter keeps) = share
        (fun held =>
          if held.guard.index = i ∧ held.phase = .live ∧ keeps held.guard = true then
            weight held.guard
          else 0) system.held := by
  have filtered := share_filter (fun held : Held n => weight held.guard)
    (fun held => held.guard.index = i && held.phase = .live && keeps held.guard) system.held
  simp only [Bool.and_eq_true, decide_eq_true_eq, and_assoc] at filtered
  rw [filtered, live, List.filter_map, List.filter_filter, share, share, List.map_map]
  congr 2
  apply List.filter_congr
  intro held _
  rw [Function.comp_apply, Bool.and_comm]

variable {system : System n R}

section
variable (balanced : Balanced system)
include balanced

/-- A counter of live guards says how many there are, or how much they weigh,
once no guard is being dropped, and before that at least as much. -/
lemma value_live (counter : Counter) (keeps : SlotGuard n → Bool) (most : SlotGuard n → Nat)
    (counts : ∀ held : Held n, held.phase = .live →
      counter.weight held = if keeps held.guard then most held.guard else 0) :
    share most ((live system i).filter keeps) ≤ value (system.workers i) counter ∧
      (Quiet system i →
        value (system.workers i) counter = share most ((live system i).filter keeps)) := by
  rw [share_live, balanced i counter]
  constructor
  · apply share_le
    intro held _
    rw [weightAt]
    split
    next counted => rw [if_pos counted.1, counts held counted.2.1, if_pos counted.2.2]
    next => exact Nat.zero_le _
  · intro quiet
    apply share_congr
    intro held inside
    rw [weightAt]
    by_cases here : held.guard.index = i
    · have phase := quiet held inside here
      simp [here, phase, counts held phase]
    · simp [here]

lemma value_slots : (live system i).length ≤ (system.workers i).dispatched ∧
    (Quiet system i → (system.workers i).dispatched = (live system i).length) := by
  have whole := value_live balanced (i := i) .slots (fun _ => true) (fun _ => 1)
    fun held phase => by simp [weight, phase]
  rwa [List.filter_true, share_one] at whole

lemma requests_of_quiet (quiet : Quiet system i) (model : String) :
    (system.workers i).dispatchedByModel.read model = ((live system i).filter fun guard =>
        guard.model = some model).length := by
  rw [← share_one]
  exact (value_live balanced (.requests model) _ _ fun _ phase => by simp [weight, phase]).2 quiet

lemma work_of_quiet (quiet : Quiet system i) (model : String) :
    (system.workers i).workByModel.read model =
      share SlotGuard.work ((live system i).filter fun guard => guard.model = some model) :=
  (value_live balanced (.work model) _ _ fun held phase => by simp [weight, phase]).2 quiet

lemma live_audio_le : ((live system i).filter SlotGuard.audio).length ≤
      (system.workers i).audioDispatched := by
  rw [← share_one]
  exact (value_live balanced .audio _ _ fun _ _ => rfl).1

end

end Live

/-! ## Whole runs -/

variable [NeZero n] [RatioOps R] {system later : System n R}

open Relation in
lemma run_balanced (run : ReflTransGen (Step config) system later)
    (balanced : Balanced system) : Balanced later := by
  induction run with
  | refl => exact balanced
  | tail _ step ih => exact step_balanced step ih

open Relation in
lemma run_singleAudio (run : ReflTransGen (Step config) system later)
    (single : SingleAudio system) : SingleAudio later := by
  induction run with
  | refl => exact single
  | tail _ step ih => exact step_singleAudio step ih

/-- A step from a state in which the loads can be added up. -/
def FittingStep (config : CoordinatorConfig) (system later : System n R) : Prop :=
  Step config system later ∧ Fits system

open Relation in
lemma run_capped (configured : config.workerSlots = some cap)
    (run : ReflTransGen (FittingStep config) system later) (capped : Capped cap system) :
    Capped cap later := by
  induction run with
  | refl => exact capped
  | tail _ step ih => exact step_capped configured step.1 step.2 ih

open Relation in
/-- In every reachable state every counter is the sum over the guards that
have not yet been taken off it.  Where no guard of a worker is in the middle
of its drop, the worker's counters are those of its live guards.  At most one
of these is for audio, and, as long as the loads of the run could be added
up, there are no more of them than a configured cap allows. -/
theorem counters_match_guards (run : ReflTransGen (Step config) System.init system) :
    Balanced system ∧ ∀ index, (Quiet system index →
        (system.workers index).dispatched = (live system index).length ∧
        ∀ model, (system.workers index).dispatchedByModel.read model =
            ((live system index).filter fun guard => guard.model = some model).length ∧
          (system.workers index).workByModel.read model =
            share SlotGuard.work ((live system index).filter fun guard =>
              guard.model = some model)) ∧
      ((live system index).filter SlotGuard.audio).length ≤ 1 ∧
      (ReflTransGen (FittingStep config) System.init system → ∀ cap, config.workerSlots = some cap →
          (live system index).length ≤ max cap 1) := by
  have balanced := run_balanced run init_balanced
  have single := run_singleAudio run fun _ => Nat.zero_le _
  refine ⟨balanced, fun index => ⟨?_, ?_, ?_⟩⟩
  · intro quiet
    exact ⟨(value_slots balanced).2 quiet, fun model =>
      ⟨requests_of_quiet balanced quiet model, work_of_quiet balanced quiet model⟩⟩
  · exact le_trans (live_audio_le balanced) (single index)
  · intro fitting cap configured
    have capped := run_capped configured fitting (init_capped cap)
    exact le_trans (value_slots balanced).1 (capped.within index)

/-! ### A report that overflows -/

instance : RatioOps Unit where
  quotient := fun _ _ => ()
  sub := fun _ _ => ()
  partialCmp := fun _ _ => some .eq

/-- One request at a time on every worker. -/
def oneSlot : CoordinatorConfig := { workerSlots := some 1, queueDepth := 0 }

/-- A worker that serves chat and reports these requests in flight. -/
def reporting (inFlight audio : UInt64) : WorkerInfo :=
  { protocolVersion := 1
    model := "m"
    models := []
    nCtx := 0
    maxConcurrency := 1
    inFlight := inFlight
    transcriptionInFlight := audio
    capabilities :=
      { chat := true
        completions := false
        embeddings := false
        transcriptions := false } }

def ownShare (ours : Nat) : OwnShare :=
  { ours := ours, audioProbeEpoch := 0, oursByModel := ∅, generation := 0 }

def chatPick : PickArgs 1 :=
  { path := .chatCompletions
    model := none
    work := { context := none, units := 1 }
    exclude := []
    preferred := none }

/-- The state after a probe of the only worker. -/
def probed (system : System 1 Unit) (report : WorkerInfo) (ours : Nat) : System 1 Unit :=
  system.exchange 0
    (fun worker =>
      { worker with
        status := worker.status.applyProbe (some report) (ownShare ours) })
    system.held system.picking

/-- The state after a request was picked for it. -/
def picked (system : System 1 Unit) : System 1 Unit :=
  system.exchange 0 (fun worker => worker.reserve (some "m") 1)
    (⟨⟨false, 0, some "m", 1⟩, .live⟩ :: system.held) none

/-- The state of a pick of that request. -/
def picking (system : System 1 Unit) (looked : Nat) (scan : Scan 1 Unit) : System 1 Unit :=
  { system with picking := some (.generation chatPick 0 looked scan) }

open Relation in
/-- A request is picked for the only worker if the loop settles for it. -/
lemma picked_run {system : System 1 Unit} {best : Best 1 Unit} (free : system.picking = none)
    (found : (look oneSlot chatPick 0 (system.workers 0) {}).best = some best)
    (model : best.model = "m") : ReflTransGen (Step oneSlot) system (picked system) := by
  have started : Step oneSlot system (picking system 0 {}) := .pickStart 0 free (by decide)
  have looked : Step oneSlot (picking system 0 {}) (picking system 1
      (look oneSlot chatPick 0 (system.workers 0) {})) :=
    .pickLook rfl (by decide)
  have taken : Step oneSlot (picking system 1
      (look oneSlot chatPick 0 (system.workers 0) {})) (picked system) := by
    have place : best.index = 0 := Subsingleton.elim _ _
    have step : Step oneSlot (picking system 1 (look oneSlot chatPick 0 (system.workers 0) {}))
        ((picking system 1 (look oneSlot chatPick 0 (system.workers 0) {})).exchange best.index
          (fun worker => worker.reserve (some best.model) chatPick.work.units)
          (⟨⟨false, best.index, some best.model, chatPick.work.units⟩,
            .live⟩ :: system.held) none) := .pickCommit rfl found
    rw [place, model] at step
    exact step
  exact ((ReflTransGen.single started).tail looked).tail taken

/-- The worker reports as many requests as a counter can hold, one of them
audio; one of them is the router's own. -/
def overflowing : System 1 Unit :=
  probed (picked (probed .init (reporting 0 0) 0)) (reporting 18446744073709551615 1) 1

open Relation in
lemma overflowing_run : ReflTransGen (Step oneSlot) System.init overflowing :=
  ((ReflTransGen.single (.probe 0 (some (reporting 0 0)) (ownShare 0))).trans
    (picked_run rfl rfl rfl)).tail
    (.probe 0 (some (reporting 18446744073709551615 1)) (ownShare 1))

open Relation in
/-- One request picked: the worker's counter is the number of its guards. -/
theorem first_picked_counted : ReflTransGen (Step oneSlot) System.init
        (picked (probed .init (reporting 0 0) 0)) ∧
      ((picked (probed .init (reporting 0 0) 0)).workers 0).dispatched =
        (live (picked (probed .init (reporting 0 0) 0)) 0).length ∧
      (live (picked (probed .init (reporting 0 0) 0)) 0).length = 1 := by
  have run : ReflTransGen (Step oneSlot) System.init (picked (probed .init (reporting 0 0) 0)) :=
    (ReflTransGen.single (.probe 0 (some (reporting 0 0)) (ownShare 0))).trans
      (picked_run rfl rfl rfl)
  refine ⟨run, (((counters_match_guards run).2 0).1 ?_).1, rfl⟩
  intro held inside _
  rw [List.mem_singleton.mp inside]

open Relation in
/-- With one slot for each worker a second request is picked: one in flight
and the reported load add up to zero. -/
theorem second_picked : ReflTransGen (Step oneSlot) System.init (picked overflowing) ∧
      oneSlot.workerSlots = some 1 ∧
      (live (picked overflowing) 0).length = 2 :=
  ⟨overflowing_run.trans (picked_run rfl rfl rfl), rfl, rfl⟩

end Joshua.Coordinator
