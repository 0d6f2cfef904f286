/-
Module: Joshua.Model.Residency
Purpose: The pool of experts resident on a device (`residency.rs`,
  `DeviceResidency`): a byte budget shared by the slots and by the uploads in
  flight, and its callers.
Trusted boundary: the pool's mutex makes each locked section one step; hash
  maps are lists of entries in an unspecified order; the unstable sort of the
  victims may order slots of equal age in any way.
-/
import Joshua.Foundation.OrderedMap

namespace Joshua.Residency
open Joshua.Foundation
open OrderedMap (get insert keys remove)

/-- An expert: its layer and its number in the layer. -/
abbrev ExpertKey := UInt32 × UInt32

/-- `DeviceExpertSlot`: what the pool needs to know about a payload. -/
class DeviceExpertSlot (T : Type) where
  deviceBytes : T → UInt64

variable {T : Type}

structure Slot (T : Type) where
  payload : T
  bytes : Nat
  lastUsed : Nat
  generation : Nat

/-- What the pool's mutex protects. -/
structure PoolState (T : Type) where
  slots : List (ExpertKey × Slot T)
  /-- Experts whose upload is in flight, with their reservation. -/
  inFlight : List (ExpertKey × Nat)
  hot : List ExpertKey
  leased : List ExpertKey
  usedBytes : Nat

/-- The fixed part of the pool.  `new` raises `per_slot_bytes` to at least
one. -/
structure DeviceResidency where
  capacityBytes : Nat
  perSlotBytes : Nat
  capacity_lt : capacityBytes < u64Limit
  perSlot_lt : perSlotBytes < u64Limit
  perSlot_pos : 1 ≤ perSlotBytes

lemma max_one_lt_u64Limit (bytes : UInt64) : max bytes.toNat 1 < u64Limit :=
  Nat.max_lt.mpr ⟨bytes.toNat_lt, by decide⟩

def DeviceResidency.new (capacityBytes perSlotBytes : UInt64) : DeviceResidency where
  capacityBytes := capacityBytes.toNat
  perSlotBytes := max perSlotBytes.toNat 1
  capacity_lt := capacityBytes.toNat_lt
  perSlot_lt := max_one_lt_u64Limit perSlotBytes
  perSlot_pos := Nat.le_max_right _ _

def PoolState.empty : PoolState T :=
  { slots := [], inFlight := [], hot := [], leased := [], usedBytes := 0 }

/-- `HOT_SET_SHARE`: the part of the slots the hot set may occupy. -/
def hotSetShare : Nat × Nat := (3, 4)

/-! ## The locked sections -/

/-- A slot that eviction may not take. -/
def PoolState.isProtected (state : PoolState T) (key : ExpertKey) : Bool :=
  state.hot.contains key || state.leased.contains key

/-- A slot as `make_room` lists it: its key, its age and its size. -/
structure Victim where
  key : ExpertKey
  lastUsed : Nat
  bytes : Nat
deriving Repr, DecidableEq

/-- The slots that may be evicted. -/
def PoolState.candidates (state : PoolState T) : List Victim :=
  (state.slots.filter fun entry => !state.isProtected entry.1).map
    fun entry => { key := entry.1, lastUsed := entry.2.lastUsed, bytes := entry.2.bytes }

/-- `sort_unstable_by_key` on the age: oldest first, ties in any order. -/
structure VictimOrder (state : PoolState T) (victims : List Victim) : Prop where
  perm : victims.Perm state.candidates
  oldestFirst : victims.Pairwise fun left right =>
    left.lastUsed ≤ right.lastUsed

namespace DeviceResidency

variable (pool : DeviceResidency)

/-- Whether `need` more bytes are within the budget. -/
def hasRoom (state : PoolState T) (need : Nat) : Bool :=
  satAdd state.usedBytes need ≤ pool.capacityBytes

/-- The loop of `make_room`: remove victims until `need` bytes fit. -/
def evict (need : Nat) : List Victim → PoolState T → PoolState T × List T
  | [], state => (state, [])
  | victim :: rest, state =>
    if pool.hasRoom state need then
      (state, [])
    else
      match remove victim.key state.slots with
      | none => evict need rest state
      | some (slot, slots) =>
        let next := evict need rest
          { state with
            slots := slots
            usedBytes := state.usedBytes - victim.bytes }
        (next.1, slot.payload :: next.2)

/-- `make_room`: the state after evicting, the evicted payloads and whether
`need` bytes fit now. -/
def makeRoom (victims : List Victim) (state : PoolState T) (need : Nat) :
    PoolState T × List T × Bool :=
  if pool.hasRoom state need then
    (state, [], true)
  else
    let cleared := pool.evict need victims state
    (cleared.1, cleared.2, pool.hasRoom cleared.1 need)

/-- How the first locked section of `acquire` ends. -/
inductive Reserved (T : Type)
  /-- The expert is resident; its slot was touched. -/
  | resident
  /-- Another caller is uploading it. -/
  | busy
  /-- No room; these slots were evicted all the same. -/
  | refused (evicted : List T)
  /-- The caller goes on to upload. -/
  | upload (evicted : List T)

/-- The first locked section of `acquire`. -/
def reserve (victims : List Victim) (key : ExpertKey) (now : Nat)
    (state : PoolState T) : PoolState T × Reserved T :=
  match get key state.slots with
  | some slot =>
    ({ state with
        slots := insert key { slot with lastUsed := now } state.slots }, .resident)
  | none =>
    if key ∈ keys state.inFlight then
      (state, .busy)
    else
      let made := pool.makeRoom victims state pool.perSlotBytes
      if made.2.2 then
        ({ made.1 with
            usedBytes := wrapAdd made.1.usedBytes pool.perSlotBytes
            inFlight := insert key pool.perSlotBytes made.1.inFlight }, .upload made.2.1)
      else
        (made.1, .refused made.2.1)

/-- How the second locked section of `acquire` ends. -/
inductive Settled (T : Type)
  /-- The upload failed. -/
  | failed
  /-- No room for the real size; the payload is dropped. -/
  | refused (evicted : List T)
  /-- The payload is resident. -/
  | resident (evicted : List T)

/-- Give back the reservation of an upload that ended. -/
def giveBack (key : ExpertKey) (state : PoolState T) : PoolState T :=
  match remove key state.inFlight with
  | none => { state with usedBytes := state.usedBytes - pool.perSlotBytes }
  | some (reserved, inFlight) =>
    { state with
      inFlight := inFlight
      usedBytes := state.usedBytes - reserved }

variable [DeviceExpertSlot T]

/-- The second locked section of `acquire`, with what the upload gave. -/
def settle (victims : List Victim) (key : ExpertKey) (payload : Option T)
    (now : Nat) (state : PoolState T) : PoolState T × Settled T :=
  let returned := pool.giveBack key state
  match payload with
  | none => (returned, .failed)
  | some payload =>
    let bytes := (DeviceExpertSlot.deviceBytes payload).toNat
    let made := pool.makeRoom victims returned bytes
    if !made.2.2 && !made.1.slots.isEmpty then
      (made.1, .refused made.2.1)
    else
      ({ made.1 with
          usedBytes := wrapAdd made.1.usedBytes bytes
          slots := insert key
            { payload := payload
              bytes := bytes
              lastUsed := now
              generation := now } made.1.slots }, .resident made.2.1)

/-- `replace_hot_set`: the given experts up to the share of the slots; the
product is one of `usize`. -/
def replaceHotSet (hot : List ExpertKey) (state : PoolState T) : PoolState T :=
  let cap := pool.capacityBytes / pool.perSlotBytes * hotSetShare.1 % 2 ^ 64 / hotSetShare.2
  { state with hot := hot.take cap }

end DeviceResidency

namespace PoolState

section
variable (key : ExpertKey)

/-- `lookup`: the payload of a resident expert, whose slot is touched. -/
def lookup (now : Nat) (state : PoolState T) : PoolState T × Option T :=
  match get key state.slots with
  | some slot =>
    ({ state with
        slots := insert key { slot with lastUsed := now } state.slots }, some slot.payload)
  | none => (state, none)

/-- `release`: take an expert out, unless it is leased. -/
def release (state : PoolState T) : PoolState T × Option T :=
  if state.leased.contains key then
    (state, none)
  else
    match remove key state.slots with
    | none => (state, none)
    | some (slot, slots) =>
      ({ state with
          slots := slots
          usedBytes := state.usedBytes - slot.bytes }, some slot.payload)

def markHot (state : PoolState T) : PoolState T :=
  { state with hot := state.hot.insert key }

def unmarkHot (state : PoolState T) : PoolState T :=
  { state with hot := state.hot.filter fun other => other != key }

/-- The first locked section of `with_lease`: whether the callback runs. -/
def lease (generation : Nat) (state : PoolState T) : PoolState T × Bool :=
  if (get key state.slots).map Slot.generation = some generation then
    ({ state with leased := state.leased.insert key }, true)
  else
    (state, false)

/-- The guard of `with_lease` drops. -/
def unlease (state : PoolState T) : PoolState T :=
  { state with leased := state.leased.filter fun other => other != key }

end

end PoolState

/-!
## Callers

A call in progress is named by an element of `Caller`; a callback that calls
the pool again is another call.  Between its locked sections a call holds
nothing but the key it is working on: `acquire` while it uploads, `with_lease`
while its callback runs.  Clock readings are taken outside the lock, so a step
carries them with no relation between two of them.
-/

variable {Caller : Type} [DecidableEq Caller]

/-- The pool with the calls that have left the lock and will come back. -/
structure System (Caller T : Type) where
  state : PoolState T
  uploading : Caller → Option ExpertKey
  leasing : Caller → Option ExpertKey

def System.init : System Caller T :=
  { state := .empty, uploading := fun _ => none, leasing := fun _ => none }

/-- The locked sections. -/
inductive Action (Caller T : Type)
  | acquire (caller : Caller) (key : ExpertKey) (now : Nat) (victims : List Victim)
  | settle (caller : Caller) (payload : Option T) (now : Nat) (victims : List Victim)
  | lookup (key : ExpertKey) (now : Nat)
  | release (key : ExpertKey)
  | markHot (key : ExpertKey)
  | unmarkHot (key : ExpertKey)
  | replaceHotSet (hot : List ExpertKey)
  | lease (caller : Caller) (key : ExpertKey) (generation : Nat)
  | unlease (caller : Caller)

variable [DeviceExpertSlot T]

/-- One locked section of one call. -/
inductive Step (pool : DeviceResidency) : System Caller T → Action Caller T → System Caller T → Prop
  /-- `acquire` that reserves and goes on to upload. -/
  | reserve {system : System Caller T} {caller key now victims next evicted}
      (idle : system.uploading caller = none)
      (order : VictimOrder system.state victims)
      (returns : pool.reserve victims key now system.state = (next, .upload evicted)) :
      Step pool system (.acquire caller key now victims)
        { system with
          state := next
          uploading := Function.update system.uploading caller (some key) }
  /-- `acquire` that returns from its first section. -/
  | decline {system : System Caller T} {caller key now victims next result}
      (idle : system.uploading caller = none)
      (order : VictimOrder system.state victims)
      (returns : pool.reserve victims key now system.state = (next, result))
      (declined : ∀ evicted, result ≠ .upload evicted) :
      Step pool system (.acquire caller key now victims) { system with state := next }
  | settle {system : System Caller T} {caller key payload now victims}
      (mine : system.uploading caller = some key)
      (order : VictimOrder (pool.giveBack key system.state) victims) :
      Step pool system (.settle caller payload now victims)
        { system with
          state := (pool.settle victims key payload now system.state).1
          uploading := Function.update system.uploading caller none }
  | lookup {system : System Caller T} {key now} : Step pool system (.lookup key now)
        { system with state := (system.state.lookup key now).1 }
  | release {system : System Caller T} {key} : Step pool system (.release key)
        { system with state := (system.state.release key).1 }
  | markHot {system : System Caller T} {key} : Step pool system (.markHot key)
        { system with state := system.state.markHot key }
  | unmarkHot {system : System Caller T} {key} : Step pool system (.unmarkHot key)
        { system with state := system.state.unmarkHot key }
  | replaceHotSet {system : System Caller T} {hot} : Step pool system (.replaceHotSet hot)
        { system with state := pool.replaceHotSet hot system.state }
  /-- `with_lease` that finds the generation and runs its callback. -/
  | lease {system : System Caller T} {caller key generation next}
      (idle : system.leasing caller = none)
      (returns : system.state.lease key generation = (next, true)) :
      Step pool system (.lease caller key generation)
        { system with
          state := next
          leasing := Function.update system.leasing caller (some key) }
  /-- `with_lease` that returns `None`. -/
  | leaseMissed {system : System Caller T} {caller key generation next}
      (returns : system.state.lease key generation = (next, false)) :
      Step pool system (.lease caller key generation) { system with state := next }
  | unlease {system : System Caller T} {caller key}
      (mine : system.leasing caller = some key) :
      Step pool system (.unlease caller)
        { system with
          state := system.state.unlease key
          leasing := Function.update system.leasing caller none }

/-- A locked section as it was taken. -/
structure Taken (Caller T : Type) where
  before : System Caller T
  action : Action Caller T
  after : System Caller T

/-- Any interleaving of the locked sections of any number of calls. -/
inductive Run (pool : DeviceResidency) : System Caller T → List (Taken Caller T) → Prop
  | done {system : System Caller T} : Run pool system []
  | next {system later : System Caller T} {action : Action Caller T} {rest}
      (step : Step pool system action later) (run : Run pool later rest) :
      Run pool system (⟨system, action, later⟩ :: rest)

end Joshua.Residency
