/-
Module: Joshua.Proofs.ResidencyLeases
Purpose: What a lease of the device pool is worth.  A callback of `with_lease`
  keeps its slot through every locked section of the other callers, until
  another lease of the same expert ends: the pool records leases as a set of
  experts, so the first of two overlapping leases takes the record away.
Trusted boundary: none
-/
import Joshua.Proofs.ResidencyBudget

namespace Joshua.Residency
open Joshua.Foundation List
open Function (update update_of_ne)
open OrderedMap (get insert keys mem_insert mem_keys mem_of_get remove remove_perm)

variable {T Caller : Type}

/-- The expert is resident with exactly this generation, as `with_lease`
checks it. -/
def PoolState.ResidentAs (state : PoolState T) (key : ExpertKey) (generation : Nat) : Prop :=
  (get key state.slots).map Slot.generation = some generation

/-- The expert is resident with this generation and its lease is on record. -/
structure Holds (state : PoolState T) (key : ExpertKey) (generation : Nat) : Prop where
  resident : ∃ slot, (key, slot) ∈ state.slots ∧ slot.generation = generation
  leased : key ∈ state.leased

variable {key : ExpertKey} {gen : Nat} {caller : Caller}
  {steps earlier : List (Taken Caller T)} {state : PoolState T}

lemma residentAs_iff (keyed : state.Keyed) : state.ResidentAs key gen ↔
      ∃ slot, (key, slot) ∈ state.slots ∧ slot.generation = gen := by
  simp [PoolState.ResidentAs, OrderedMap.get_eq_some keyed.slots]

namespace Holds

variable {state next : PoolState T} {key other : ExpertKey} {gen : Nat}

section
variable (holds : Holds state key gen)
include holds

lemma isProtected : state.isProtected key = true := by
  simp [PoolState.isProtected, holds.leased]

/-- Eviction leaves a leased slot alone. -/
lemma cleared (cleared : Cleared state next) : Holds next key gen := by
  obtain ⟨slot, mem, same⟩ := holds.resident
  constructor
  · exact ⟨slot, cleared.kept mem holds.isProtected, same⟩
  · rw [cleared.leased]
    exact holds.leased

/-- Writing the slot of an expert keeps a hold, if the slot of the held expert
is only touched. -/
lemma written {slot : Slot T} (touched : other = key → slot.generation = gen)
    (slots : next.slots = insert other slot state.slots)
    (leased : next.leased = state.leased) : Holds next key gen := by
  obtain ⟨old, mem, same⟩ := holds.resident
  constructor
  · rw [slots]
    by_cases mine : other = key
    · subst mine
      exact ⟨slot, mem_insert.mpr (.inl rfl), touched rfl⟩
    · refine ⟨old, mem_insert.mpr (.inr ⟨mem, ?_⟩), same⟩
      exact fun equal => mine equal.symm
  · rw [leased]
    exact holds.leased

/-- Touching a resident slot writes its own generation back. -/
lemma touched (keyed : state.Keyed)
    {slot : Slot T} (mem : (other, slot) ∈ state.slots) (now : Nat) :
    Holds
      { state with
        slots := insert other { slot with lastUsed := now } state.slots } key gen := by
  refine holds.written ?_ rfl rfl
  intro mine
  obtain ⟨old, held, same⟩ := holds.resident
  rw [← mine] at held
  rw [OrderedMap.value_unique keyed.slots mem held]
  exact same

/-- A section that leaves the slots and this lease as they are. -/
lemma of_same (slots : next.slots = state.slots) (leased : key ∈ state.leased → key ∈ next.leased) :
    Holds next key gen := by
  constructor
  · rw [slots]
    exact holds.resident
  · exact leased holds.leased

end

/-! ## The locked sections -/

section
variable (holds : Holds state key gen)
include holds

variable {pool : DeviceResidency} {victims : List Victim}

lemma reserve (keyed : state.Keyed) {now : Nat} {result : DeviceResidency.Reserved T}
    (order : VictimOrder state victims)
    (returns : pool.reserve victims other now state = (next, result)) :
    Holds next key gen := by
  rcases reserve_cases keyed order returns with
    ⟨slot, mem, _, rfl⟩ | ⟨_, _, rfl⟩ | ⟨_, _, _, made, ⟨_, _, rfl⟩ | ⟨_, _, rfl⟩⟩
  · exact holds.touched keyed mem now
  · exact holds
  · exact (holds.cleared made.cleared).of_same rfl id
  · exact holds.cleared made.cleared

lemma giveBack (keyed : state.Keyed)
    (pool : DeviceResidency) (flying : other ∈ keys state.inFlight) :
    Holds (pool.giveBack other state) key gen := by
  apply holds.of_same (giveBack_spec pool keyed flying).2.1
  rw [DeviceResidency.giveBack]
  cases remove other state.inFlight <;> exact id

/-- An upload is of an expert that is not resident, so settling it writes no
held slot. -/
lemma settle [DeviceExpertSlot T] (keyed : state.Keyed) {payload : Option T} {now : Nat}
    (flying : other ∈ keys state.inFlight)
    (order : VictimOrder (pool.giveBack other state) victims) :
    Holds (pool.settle victims other payload now state).1 key gen := by
  have returned := holds.giveBack keyed pool flying
  have returnedKeyed := (giveBack_spec pool keyed flying).1
  cases payload with
  | none => exact returned
  | some payload =>
    have made := returned.cleared (makeRoom_made pool
      (DeviceExpertSlot.deviceBytes payload).toNat returnedKeyed order).cleared
    simp only [DeviceResidency.settle]
    split
    · exact made
    · refine made.written ?_ rfl rfl
      intro mine
      obtain ⟨slot, mem, _⟩ := holds.resident
      have resident := mem_keys.mpr ⟨slot, mem⟩
      rw [mine] at flying
      exact absurd resident (keyed.apart key flying)

lemma lookup (keyed : state.Keyed) (now : Nat) : Holds (state.lookup other now).1 key gen := by
  rw [PoolState.lookup]
  cases search : get other state.slots with
  | none => exact holds
  | some slot => exact holds.touched keyed (mem_of_get search) now

/-- `release` refuses a leased expert and leaves the others alone. -/
lemma release : Holds (state.release other).1 key gen := by
  rw [PoolState.release]
  split
  · exact holds
  · rename_i free
    cases removed : remove other state.slots with
    | none => exact holds
    | some found =>
      obtain ⟨slot, slots⟩ := found
      obtain ⟨old, mem, same⟩ := holds.resident
      have perm := remove_perm removed
      constructor
      · rcases mem_cons.mp (perm.symm.subset mem) with first | left
        · have mine : key = other := congrArg Prod.fst first
          rw [← mine] at free
          exact absurd (contains_iff_mem.mpr holds.leased) free
        · exact ⟨old, left, same⟩
      · exact holds.leased

lemma lease (other : ExpertKey) (asked : Nat) : Holds (state.lease other asked).1 key gen := by
  rw [PoolState.lease]
  split
  · exact holds.of_same rfl fun leased => mem_insert_of_mem leased
  · exact holds

lemma unlease (different : other ≠ key) : Holds (state.unlease other) key gen := by
  refine holds.of_same rfl ?_
  intro leased
  simp only [PoolState.unlease, mem_filter, bne_iff_ne]
  exact ⟨leased, different.symm⟩

end

end Holds

/-- A lease that succeeds is on record for a resident slot. -/
lemma lease_holds {next : PoolState T} (returns : state.lease key gen = (next, true)) :
    Holds next key gen := by
  rw [PoolState.lease] at returns
  split at returns
  · rename_i found
    obtain ⟨slot, search, same⟩ := Option.map_eq_some_iff.mp found
    obtain ⟨rfl, _⟩ := Prod.mk.inj returns
    constructor
    · exact ⟨slot, mem_of_get search, same⟩
    · exact mem_insert_self
  · cases returns

/-! ## One step -/

variable [DecidableEq Caller] [DeviceExpertSlot T] {pool : DeviceResidency}
  {system later : System Caller T} {action : Action Caller T}

/-- A guard drops while no other call holds a lease of the same expert. -/
def EndsAlone (taken : Taken Caller T) : Prop :=
  ∀ caller key, taken.action = .unlease caller → taken.before.leasing caller = some key →
    ∀ other, taken.before.leasing other = some key → other = caller

section
variable (step : Step pool system action later) (sound : Sound system)
include step sound

/-- Every section keeps a hold, except for a guard that drops on the same
expert. -/
lemma step_holds (others : ∀ caller, action = .unlease caller → system.leasing caller ≠ some key)
    (holds : Holds system.state key gen) : Holds later.state key gen := by
  have keyed := sound.keyed
  cases step with
  | reserve idle order returns | decline idle order returns declined =>
    exact holds.reserve keyed order returns
  | settle mine order => exact holds.settle keyed ((sound.carried _).mpr ⟨_, mine⟩) order
  | lookup => exact holds.lookup keyed _
  | release => exact holds.release
  | markHot | unmarkHot | replaceHotSet => exact holds.of_same rfl id
  | @lease caller other asked next idle returns
  | @leaseMissed caller other asked next returns =>
    have kept := holds.lease other asked
    rw [returns] at kept
    exact kept
  | unlease mine =>
    apply holds.unlease
    intro same
    apply others _ rfl
    rw [mine, same]

/-- Whatever a section does, the slot of a recorded lease is still there after
it. -/
lemma step_residentAs (holds : Holds system.state key gen) : later.state.ResidentAs key gen := by
  have nextSound := (step_stepped step sound).sound
  by_cases ends : ∃ caller, action = .unlease caller
  · obtain ⟨caller, rfl⟩ := ends
    cases step with
    | unlease mine =>
      rw [residentAs_iff nextSound.keyed]
      exact holds.resident
  · rw [residentAs_iff nextSound.keyed]
    apply (step_holds step sound _ holds).resident
    exact fun caller isEnd => absurd ⟨caller, isEnd⟩ ends

end

/-- A guard that drops takes its expert off the record. -/
lemma step_unlease (step : Step pool system (.unlease caller) later)
    (mine : system.leasing caller = some key) : later.state = system.state.unlease key := by
  cases step with
  | unlease held => rw [Option.some.inj (held.symm.trans mine)]

/-- The leases other calls hold after a section that is not their own. -/
lemma step_leasing (step : Step pool system action later) (foreign : action ≠ .unlease caller)
    (leasing : system.leasing caller = some key) : later.leasing caller = some key := by
  cases step with
  | reserve | decline | settle | lookup | release | markHot | unmarkHot
  | replaceHotSet | leaseMissed => exact leasing
  | @lease other asked gen next idle returns =>
    have different : caller ≠ other := by
      intro same
      rw [same, idle] at leasing
      cases leasing
    simpa [update_of_ne different] using leasing
  | @unlease other held mine =>
    have different : caller ≠ other := fun same => foreign (by rw [same])
    simpa [update_of_ne different] using leasing

/-! ## Whole runs -/

/-- The system after a list of sections. -/
def reached (system : System Caller T) (steps : List (Taken Caller T)) : System Caller T :=
  steps.foldl (fun _ taken => taken.after) system

omit [DeviceExpertSlot T] [DecidableEq Caller] in
@[simp] lemma reached_nil : reached system [] = system := rfl

variable {rest : List (Taken Caller T)}

lemma run_append : Run pool system (earlier ++ rest) ↔
      Run pool system earlier ∧ Run pool (reached system earlier) rest := by
  induction earlier generalizing system with
  | nil =>
    constructor
    · intro run
      exact ⟨.done, run⟩
    · intro runs
      exact runs.2
  | cons taken earlier ih =>
    constructor
    · intro run
      cases run with
      | next step run =>
        obtain ⟨first, second⟩ := ih.mp run
        exact ⟨.next step first, second⟩
    · rintro ⟨first, second⟩
      cases first with
      | next step run => exact .next step (ih.mpr ⟨run, second⟩)

variable {last : Taken Caller T}

lemma run_concat (run : Run pool system (steps ++ [last])) :
    Run pool system steps ∧ last.before = reached system steps ∧
      Step pool last.before last.action last.after := by
  obtain ⟨first, second⟩ := run_append.mp run
  cases second with
  | next step _ => exact ⟨first, rfl, step⟩

omit [DeviceExpertSlot T] [DecidableEq Caller] in
lemma reached_concat (steps : List (Taken Caller T)) (last : Taken Caller T) :
    reached system (steps ++ [last]) = last.after := by
  simp [reached]

lemma reached_sound (run : Run pool system steps) (sound : Sound system) :
    Sound (reached system steps) := by
  induction run with
  | done => exact sound
  | next step run ih => exact ih (step_stepped step sound).sound

/-- The section in which the generation check of a `with_lease` succeeds. -/
structure Starts (taken : Taken Caller T) (caller : Caller) (key : ExpertKey)
    (generation : Nat) : Prop where
  action : taken.action = .lease caller key generation
  idle : taken.before.leasing caller = none
  leasing : taken.after.leasing caller = some key

/-- From the section in which its generation check succeeds, and until its
guard drops, a call finds its slot resident with that generation. -/
def LeasesKept (steps : List (Taken Caller T)) : Prop :=
  ∀ earlier start during rest caller key generation, steps = earlier ++ start :: (during ++ rest) →
    Starts start caller key generation →
    (∀ taken ∈ during, taken.action ≠ .unlease caller) →
    ∀ taken ∈ start :: during, taken.after.state.ResidentAs key generation

/-- A call whose lease is on record keeps its slot as long as every guard that
drops is alone on its expert; the last section need not be such. -/
lemma run_residentAs (run : Run pool system (steps ++ [last])) (sound : Sound system)
    (leasing : system.leasing caller = some key) (holds : Holds system.state key gen)
    (alone : ∀ taken ∈ steps, EndsAlone taken) {during : List (Taken Caller T)}
    (split : during ++ rest = steps ++ [last])
    (running : ∀ taken ∈ during, taken.action ≠ .unlease caller) :
    ∀ taken ∈ during, taken.after.state.ResidentAs key gen := by
  induction during generalizing system steps with
  | nil => exact forall_mem_nil _
  | cons taken during ih =>
    rw [forall_mem_cons] at running ⊢
    cases steps with
    | nil =>
      obtain ⟨rfl, left⟩ := List.cons.inj split
      obtain ⟨rfl, _⟩ := append_eq_nil_iff.mp left
      cases run with
      | next step run => exact ⟨step_residentAs step sound holds, forall_mem_nil _⟩
    | cons first steps =>
      obtain ⟨rfl, left⟩ := List.cons.inj split
      rw [forall_mem_cons] at alone
      cases run with
      | next step run =>
        refine ⟨step_residentAs step sound holds, ?_⟩
        apply ih run (step_stepped step sound).sound
          (step_leasing step running.1 leasing) _ alone.2 left running.2
        apply step_holds step sound _ holds
        intro other isEnd theirs
        have same := alone.1 other key isEnd theirs caller leasing
        exact running.1 (by rw [same, isEnd])

section
variable (step : Step pool system action later)
include step

/-- A successful generation check puts the lease on record. -/
lemma Starts.holds (starts : Starts ⟨system, action, later⟩ caller key gen) :
    Holds later.state key gen := by
  obtain ⟨rfl, idle, leasing⟩ := starts
  cases step with
  | lease _ returns => exact lease_holds returns
  | leaseMissed _ =>
    rw [idle] at leasing
    cases leasing

/-- A call begins to hold a lease in no other section. -/
lemma step_starts (idle : system.leasing caller = none)
    (leasing : later.leasing caller = some key) :
    ∃ gen, Starts ⟨system, action, later⟩ caller key gen := by
  cases step with
  | reserve | decline | settle | lookup | release | markHot | unmarkHot
  | replaceHotSet | leaseMissed =>
    rw [idle] at leasing
    cases leasing
  | @lease other asked gen next free returns =>
    by_cases mine : caller = other
    · subst mine
      have same : asked = key := by simpa using leasing
      subst same
      exact ⟨gen, rfl, free, leasing⟩
    · simp only [update_of_ne mine, idle] at leasing
      cases leasing
  | @unlease other held mine =>
    by_cases same : caller = other
    · subst same
      simp at leasing
    · simp only [update_of_ne same, idle] at leasing
      cases leasing

/-- A call that holds a lease after a section did not end it there. -/
lemma step_running (leasing : later.leasing caller = some key) : action ≠ .unlease caller := by
  intro ends
  subst ends
  cases step with
  | unlease mine => simp at leasing

end

/-- A lease held at the end of a run began in it and has not ended since. -/
lemma exists_start (run : Run pool system steps) (idle : system.leasing caller = none)
    (leasing : (reached system steps).leasing caller = some key) :
    ∃ earlier start during gen, steps = earlier ++ start :: during ∧
        Starts start caller key gen ∧
        ∀ taken ∈ during, taken.action ≠ .unlease caller := by
  induction steps using List.reverseRecOn with
  | nil =>
    rw [reached_nil, idle] at leasing
    cases leasing
  | append_singleton steps last ih =>
    obtain ⟨first, follows, step⟩ := run_concat run
    rw [reached_concat] at leasing
    cases before : last.before.leasing caller with
    | none =>
      obtain ⟨gen, starts⟩ := step_starts step before leasing
      refine ⟨steps, last, [], gen, rfl, starts, ?_⟩
      exact nofun
    | some held =>
      have running := step_running step leasing
      have same := (step_leasing step running before).symm.trans leasing
      rw [Option.some.inj same, follows] at before
      obtain ⟨earlier, start, during, gen, split, starts, since⟩ := ih first before
      refine ⟨earlier, start, during ++ [last], gen, ?_, starts, ?_⟩
      · rw [split, append_assoc, cons_append]
      · simpa [or_imp, forall_and] using ⟨since, running⟩

omit [DeviceExpertSlot T] in
/-- Once its lease is off the record, an expert can be released. -/
lemma release_gone (keyed : state.Keyed) (free : key ∉ state.leased) :
    ¬ (state.release key).1.ResidentAs key gen := by
  have nextKeyed := (release_quiet (.new 0 0) keyed key).keyed
  rw [residentAs_iff nextKeyed]
  rintro ⟨slot, mem, _⟩
  rw [PoolState.release, if_neg (by simpa using free)] at mem
  cases removed : remove key state.slots with
  | none =>
    rw [removed] at mem
    obtain ⟨value, left, present⟩ := OrderedMap.remove_isSome (mem_keys.mpr ⟨slot, mem⟩)
    rw [removed] at present
    cases present
  | some found =>
    obtain ⟨value, slots⟩ := found
    rw [removed] at mem
    have fresh := (OrderedMap.keys_nodup_of_perm (remove_perm removed) keyed.slots).1
    exact fresh (mem_keys.mpr ⟨slot, mem⟩)

/-- As long as every guard that drops is alone on its expert, no further
section takes a slot from a running callback. -/
lemma run_leasesKept {next : Taken Caller T} (run : Run pool System.init (earlier ++ [next]))
    (alone : ∀ taken ∈ earlier, EndsAlone taken) : LeasesKept (earlier ++ [next]) := by
  intro before start during rest caller key gen split starts running
  rw [split, run_append] at run
  cases run.2 with
  | @next _ later action _ step tail =>
    have sound := (step_stepped step (reached_sound run.1 init_sound)).sound
    have holds := starts.holds step
    rw [forall_mem_cons]
    constructor
    · exact (residentAs_iff sound.keyed).mpr holds.resident
    · rcases eq_nil_or_concat (during ++ rest) with empty | ⟨inner, last, more⟩
      · rw [(append_eq_nil_iff.mp empty).1]
        exact nofun
      · rw [concat_eq_append] at more
        rw [more] at tail split
        rw [← cons_append, ← append_assoc] at split
        have same := (append_inj' split rfl).1
        apply run_residentAs tail sound starts.leasing holds _ more running
        intro taken mem
        apply alone
        rw [same]
        exact mem_append_right _ (mem_cons_of_mem _ mem)

/-- A guard that drops beside another lease of its expert leaves that lease
open to a release. -/
lemma endsAlone_of_leasesKept {taken : Taken Caller T}
    (run : Run pool System.init (earlier ++ [taken]))
    (kept : ∀ next, Run pool System.init (earlier ++ [taken] ++ [next]) →
      LeasesKept (earlier ++ [taken] ++ [next])) : EndsAlone taken := by
  obtain ⟨first, follows, step⟩ := run_concat run
  have sound := reached_sound run init_sound
  intro caller key ends mine other theirs
  rw [ends] at step
  have cut := step_unlease step mine
  by_contra different
  have running : taken.action ≠ .unlease other := by
    rw [ends]
    intro same
    cases same
    exact different rfl
  -- the other call began in `earlier` and its callback still runs
  rw [follows] at theirs
  obtain ⟨before, start, during, gen, split, starts, since⟩ := exists_start first rfl theirs
  let released : Taken Caller T :=
    { before := taken.after
      action := .release key
      after := { taken.after with state := (taken.after.state.release key).1 } }
  have extended : Run pool System.init (earlier ++ [taken] ++ [released]) := by
    apply run_append.mpr
    rw [reached_concat]
    exact ⟨run, .next .release .done⟩
  have resident := kept released extended before start
    (during ++ [taken, released]) [] other key gen (by simp [split])
    starts (by simpa [or_imp, forall_and] using ⟨since, running⟩)
    released (by simp)
  rw [reached_concat] at sound
  apply release_gone sound.keyed _ resident
  rw [cut]
  simp [PoolState.unlease]

/-- From the empty pool, over any interleaving: no section that can come next,
at any point of the run, takes the slot of a running callback away exactly if
every guard that dropped was alone on its expert. -/
theorem leases_kept_iff {steps : List (Taken Caller T)} (run : Run pool System.init steps) :
    (∀ earlier rest next, steps = earlier ++ rest → Run pool System.init (earlier ++ [next]) →
        LeasesKept (earlier ++ [next])) ↔
      ∀ taken ∈ steps, EndsAlone taken := by
  constructor
  · intro kept taken inside
    obtain ⟨earlier, rest, rfl⟩ := append_of_mem inside
    have whole : earlier ++ taken :: rest = earlier ++ [taken] ++ rest := by simp
    rw [whole] at run
    apply endsAlone_of_leasesKept (run_append.mp run).1
    intro next
    exact kept (earlier ++ [taken]) rest next whole
  · intro alone earlier rest next split extended
    apply run_leasesKept extended
    intro taken inside
    apply alone
    rw [split]
    exact mem_append_left rest inside

/-! ### Two leases of one expert -/

/-- The upload of the only expert has settled. -/
def oneResident : System Bool UInt64 :=
  { oneUploading with
    state := (smallPool.settle [] (0, 0) (some 4) 1 oneUploading.state).1
    uploading := update oneUploading.uploading false none }

def leasedBy (caller : Bool) (system : System Bool UInt64) : System Bool UInt64 :=
  { system with
    state := (system.state.lease (0, 0) 1).1
    leasing := update system.leasing caller (some (0, 0)) }

def endedBy (caller : Bool) (system : System Bool UInt64) : System Bool UInt64 :=
  { system with
    state := system.state.unlease (0, 0)
    leasing := update system.leasing caller none }

def releasedFrom (system : System Bool UInt64) : System Bool UInt64 :=
  { system with state := (system.state.release (0, 0)).1 }

/-- One call leases the expert and ends before the next begins. -/
def oneAfterTheOther : List (Taken Bool UInt64) :=
  [⟨.init, .acquire false (0, 0) 0 [], oneUploading⟩,
    ⟨oneUploading, .settle false (some 4) 1 [], oneResident⟩,
    ⟨oneResident, .lease false (0, 0) 1, leasedBy false oneResident⟩,
    ⟨leasedBy false oneResident, .unlease false, endedBy false (leasedBy false oneResident)⟩]

def bothLeasing : System Bool UInt64 :=
  leasedBy true (leasedBy false oneResident)

/-- The second call leases the expert while the first still runs. -/
def overlapping : List (Taken Bool UInt64) :=
  [⟨.init, .acquire false (0, 0) 0 [], oneUploading⟩,
    ⟨oneUploading, .settle false (some 4) 1 [], oneResident⟩,
    ⟨oneResident, .lease false (0, 0) 1, leasedBy false oneResident⟩,
    ⟨leasedBy false oneResident, .lease true (0, 0) 1, bothLeasing⟩,
    ⟨bothLeasing, .unlease false, endedBy false bothLeasing⟩,
    ⟨endedBy false bothLeasing, .release (0, 0), releasedFrom (endedBy false bothLeasing)⟩]

lemma oneResident_step : Step smallPool oneUploading (.settle false (some 4) 1 []) oneResident :=
  .settle rfl (noVictims _ rfl)

theorem one_after_the_other_kept : Run smallPool System.init oneAfterTheOther ∧
      LeasesKept oneAfterTheOther := by
  have run : Run smallPool System.init oneAfterTheOther :=
    .next oneUploading_step (.next oneResident_step
      (.next (.lease rfl rfl) (.next (.unlease rfl) .done)))
  refine ⟨run, (leases_kept_iff run).mpr ?_ (oneAfterTheOther.take 3) (oneAfterTheOther.drop 3)
    ⟨leasedBy false oneResident, .unlease false,
      endedBy false (leasedBy false oneResident)⟩ rfl run⟩
  intro taken inside caller key ends mine other theirs
  simp only [oneAfterTheOther, mem_cons, not_mem_nil, or_false] at inside
  rcases inside with rfl | rfl | rfl | rfl
  · cases ends
  · cases ends
  · cases ends
  · cases ends
    revert theirs
    cases other
    · exact fun _ => rfl
    · intro impossible
      cases impossible

/-- The callback of the second call still runs when its slot is released. -/
theorem overlapping_lease_lost : Run smallPool System.init overlapping ∧
      Starts ⟨leasedBy false oneResident, .lease true (0, 0) 1, bothLeasing⟩ true (0, 0) 1 ∧
      (releasedFrom (endedBy false bothLeasing)).leasing true = some (0, 0) ∧
      get (0, 0) (releasedFrom (endedBy false bothLeasing)).state.slots = none ∧
      ¬ LeasesKept overlapping := by
  have run : Run smallPool System.init overlapping :=
    .next oneUploading_step (.next oneResident_step (.next (.lease rfl rfl) (.next (.lease rfl rfl)
        (.next (.unlease rfl) (.next .release .done)))))
  have starts : Starts ⟨leasedBy false oneResident, .lease true (0, 0) 1, bothLeasing⟩
      true (0, 0) 1 := ⟨rfl, rfl, rfl⟩
  have gone : get (0, 0) (releasedFrom (endedBy false bothLeasing)).state.slots = none := rfl
  refine ⟨run, starts, rfl, gone, ?_⟩
  intro kept
  have resident := kept _ _ [⟨bothLeasing, .unlease false, endedBy false bothLeasing⟩,
      ⟨endedBy false bothLeasing, .release (0, 0),
        releasedFrom (endedBy false bothLeasing)⟩] [] true (0, 0) 1
    (show overlapping = overlapping.take 3 ++ overlapping.drop 3 from rfl)
    starts (by simp) _ (mem_cons_of_mem _ (mem_cons_of_mem _ mem_cons_self))
  rw [PoolState.ResidentAs, gone] at resident
  cases resident

end Joshua.Residency
