/-
Module: Joshua.Proofs.ResidencyBudget
Purpose: What the device pool's byte counter says about the slots and the
  uploads in flight; over every interleaving of its callers' locked sections
  an expert has one uploader, and the counter stays within the budget exactly
  as long as every settled payload has its place.
Trusted boundary: none
-/
import Joshua.Model.Residency

namespace Joshua.Residency
open Joshua.Foundation List
open OrderedMap (get insert keys keys_insert_absent keys_insert_nodup keys_nodup_of_perm mem_keys
  remove remove_isSome remove_perm)
open DeviceExpertSlot (deviceBytes)
open DeviceResidency (evict giveBack hasRoom makeRoom reserve settle)

variable {victims : List Victim} {key : ExpertKey}

section
variable {T : Type}

/-! ## The accounts of a state -/

namespace PoolState

def residentBytes (state : PoolState T) : Nat :=
  Ledger.total Slot.bytes state.slots

def reservedBytes (state : PoolState T) : Nat :=
  Ledger.total id state.inFlight

/-- The counter is the sum of what the slots and the uploads hold. -/
def Balanced (state : PoolState T) : Prop :=
  state.usedBytes = state.residentBytes + state.reservedBytes

/-- Both maps have one entry under a key, and none has it in common with the
other. -/
structure Keyed (state : PoolState T) : Prop where
  slots : (keys state.slots).Nodup
  inFlight : (keys state.inFlight).Nodup
  apart : ∀ key ∈ keys state.inFlight, key ∉ keys state.slots

end PoolState

/-- `next` is `state` with some unprotected slots taken out. -/
structure Cleared (state next : PoolState T) : Prop where
  inFlight : next.inFlight = state.inFlight
  hot : next.hot = state.hot
  leased : next.leased = state.leased
  gone : ∃ gone, (gone ++ next.slots).Perm state.slots ∧
    ∀ entry ∈ gone, state.isProtected entry.1 = false

namespace Cleared

variable {state next last : PoolState T}

lemma refl (state : PoolState T) : Cleared state state where
  inFlight := rfl
  hot := rfl
  leased := rfl
  gone := ⟨[], List.Perm.refl _, fun _ inside => absurd inside (by simp)⟩

lemma isProtected_eq (cleared : Cleared state next) (key : ExpertKey) :
    next.isProtected key = state.isProtected key := by
  rw [PoolState.isProtected, cleared.hot, cleared.leased]
  rfl

lemma trans (first : Cleared state next) (second : Cleared next last) : Cleared state last := by
  obtain ⟨early, earlyPerm, earlyFree⟩ := first.gone
  obtain ⟨late, latePerm, lateFree⟩ := second.gone
  refine ⟨second.inFlight.trans first.inFlight, second.hot.trans first.hot,
    second.leased.trans first.leased, early ++ late, ?_, ?_⟩
  · rw [append_assoc]
    exact (latePerm.append_left early).trans earlyPerm
  · refine forall_mem_append.mpr ⟨earlyFree, fun entry new => ?_⟩
    rw [← first.isProtected_eq]
    exact lateFree entry new

section
variable (cleared : Cleared state next)
include cleared

variable {entry : ExpertKey × Slot T}

lemma subset (mem : entry ∈ next.slots) : entry ∈ state.slots := by
  obtain ⟨gone, perm, _⟩ := cleared.gone
  exact perm.subset (mem_append_right gone mem)

lemma keys_subset (inside : key ∈ keys next.slots) : key ∈ keys state.slots := by
  obtain ⟨slot, mem⟩ := mem_keys.mp inside
  exact mem_keys.mpr ⟨slot, cleared.subset mem⟩

/-- A protected slot stays. -/
lemma kept (mem : entry ∈ state.slots) (shielded : state.isProtected entry.1 = true) :
    entry ∈ next.slots := by
  obtain ⟨gone, perm, free⟩ := cleared.gone
  rcases mem_append.mp (perm.symm.subset mem) with taken | left
  · rw [free entry taken] at shielded
    cases shielded
  · exact left

lemma keyed (keyed : state.Keyed) : next.Keyed where
  slots := by
    obtain ⟨gone, perm, _⟩ := cleared.gone
    have both : ((gone ++ next.slots).map Prod.fst).Nodup :=
      (perm.map Prod.fst).nodup_iff.mpr keyed.slots
    rw [map_append] at both
    exact (nodup_append'.mp both).2.1
  inFlight := by
    rw [cleared.inFlight]
    exact keyed.inFlight
  apart := by
    intro key flying resident
    rw [cleared.inFlight] at flying
    exact keyed.apart key flying (cleared.keys_subset resident)

end

end Cleared

/-! ## Making room -/

section MakeRoom
variable (pool : DeviceResidency) {state : PoolState T} {slots : List (ExpertKey × Slot T)}

/-- Taking one slot out and its bytes off the counter. -/
lemma remove_cleared {slot : Slot T} (removed : remove key state.slots = some (slot, slots))
    (free : state.isProtected key = false) :
    Cleared state { state with slots := slots, usedBytes := state.usedBytes - slot.bytes }
    where
  inFlight := rfl
  hot := rfl
  leased := rfl
  gone := by
    refine ⟨[(key, slot)], remove_perm removed, ?_⟩
    intro entry inside
    rw [mem_singleton.mp inside]
    exact free

lemma remove_balanced {slot : Slot T} (balanced : state.Balanced)
    (removed : remove key state.slots = some (slot, slots)) : PoolState.Balanced
      { state with
        slots := slots
        usedBytes := state.usedBytes - slot.bytes } := by
  have total := Ledger.total_remove Slot.bytes removed
  rw [PoolState.Balanced, PoolState.residentBytes] at balanced
  show state.usedBytes - slot.bytes = Ledger.total Slot.bytes slots + state.reservedBytes
  omega

/-- What the eviction loop needs of the list it works through: every entry
names an unprotected slot with its size, and none twice. -/
structure Listed (state : PoolState T) (victims : List Victim) : Prop where
  resident : ∀ victim ∈ victims, ∃ slot,
    (victim.key, slot) ∈ state.slots ∧ slot.bytes = victim.bytes
  free : ∀ victim ∈ victims, state.isProtected victim.key = false
  distinct : (victims.map Victim.key).Nodup

lemma VictimOrder.listed (keyed : state.Keyed)
    (order : VictimOrder state victims) : Listed state victims where
  resident := by
    intro victim inside
    obtain ⟨entry, mem, rfl⟩ := mem_map.mp (order.perm.subset inside)
    exact ⟨entry.2, (mem_filter.mp mem).1, rfl⟩
  free := by
    intro victim inside
    obtain ⟨entry, mem, rfl⟩ := mem_map.mp (order.perm.subset inside)
    simpa using (mem_filter.mp mem).2
  distinct := by
    rw [(order.perm.map Victim.key).nodup_iff, PoolState.candidates, map_map]
    exact keyed.slots.sublist (filter_sublist.map Prod.fst)

/-- Once its first entry is removed, the rest of the list is still good. -/
lemma Listed.tail {victim : Victim} {rest : List Victim} {next : PoolState T}
    (listed : Listed state (victim :: rest)) (cleared : Cleared state next)
    (left : ∀ entry ∈ state.slots, entry.1 ≠ victim.key → entry ∈ next.slots) :
    Listed next rest where
  resident := by
    intro j inside
    obtain ⟨slot, mem, size⟩ := listed.resident j (mem_cons_of_mem _ inside)
    refine ⟨slot, left _ mem ?_, size⟩
    intro same
    have fresh := (nodup_cons.mp listed.distinct).1
    exact fresh (mem_map.mpr ⟨j, inside, same⟩)
  free := by
    intro j inside
    rw [cleared.isProtected_eq]
    exact listed.free j (mem_cons_of_mem _ inside)
  distinct := (nodup_cons.mp listed.distinct).2

/-- The eviction loop.  If it ends without room it has been through the whole
list. -/
lemma evict_cleared (need : Nat) (keyed : state.Keyed) (listed : Listed state victims) :
    Cleared state (pool.evict need victims state).1 ∧
      (state.Balanced → (pool.evict need victims state).1.Balanced) ∧
      (pool.hasRoom (pool.evict need victims state).1 need = false →
        ∀ victim ∈ victims, victim.key ∉ keys (pool.evict need victims state).1.slots) := by
  induction victims generalizing state with
  | nil => exact ⟨Cleared.refl state, id, by simp⟩
  | cons victim rest ih =>
    rw [evict]
    by_cases room : pool.hasRoom state need = true
    · rw [if_pos room]
      refine ⟨Cleared.refl state, id, ?_⟩
      intro full
      rw [room] at full
      cases full
    · obtain ⟨slot, mem, size⟩ := listed.resident victim mem_cons_self
      obtain ⟨found, slots, removed⟩ := remove_isSome (mem_keys.mpr ⟨slot, mem⟩)
      have perm := remove_perm removed
      have here : found = slot := OrderedMap.value_unique keyed.slots
        (perm.subset mem_cons_self) mem
      subst here
      have cleared := remove_cleared removed (listed.free victim mem_cons_self)
      have left : ∀ entry ∈ state.slots, entry.1 ≠ victim.key → entry ∈ slots := by
        intro entry inside different
        rcases mem_cons.mp (perm.symm.subset inside) with same | kept
        · exact absurd (congrArg Prod.fst same) different
        · exact kept
      obtain ⟨later, settled, finished⟩ := ih (cleared.keyed keyed) (listed.tail cleared left)
      rw [if_neg room, removed]
      simp only [← size]
      refine ⟨cleared.trans later, fun balanced => settled (remove_balanced balanced removed), ?_⟩
      intro full other inside
      rcases mem_cons.mp inside with rfl | inside
      · intro still
        exact (keys_nodup_of_perm perm keyed.slots).1 (later.keys_subset still)
      · exact finished full other inside

/-- The largest budget a counter can hold: the saturating test never fails. -/
def Unbounded : Prop :=
  pool.capacityBytes = u64Limit - 1

/-- What `make_room` leaves: it only takes unprotected slots out, with their
bytes; it says whether there is room; and without room only protected slots
are left. -/
structure MadeRoom (state : PoolState T) (need : Nat) (room : PoolState T × List T × Bool) :
    Prop where
  cleared : Cleared state room.1
  balanced : state.Balanced → room.1.Balanced
  verdict : pool.hasRoom room.1 need = room.2.2
  remaining : room.2.2 = false → ∀ entry ∈ room.1.slots, state.isProtected entry.1 = true
  unbounded : Unbounded pool → room = (state, [], true)

lemma makeRoom_made (need : Nat) (keyed : state.Keyed) (order : VictimOrder state victims) :
    MadeRoom pool state need (pool.makeRoom victims state need) := by
  rw [makeRoom]
  by_cases room : pool.hasRoom state need = true
  · rw [if_pos room]
    exact ⟨Cleared.refl state, id, room, by simp, fun _ => rfl⟩
  · rw [if_neg room]
    obtain ⟨cleared, settled, finished⟩ := evict_cleared pool need keyed (order.listed keyed)
    refine ⟨cleared, settled, rfl, ?_, fun unbounded => absurd ?_ room⟩
    · intro full entry mem
      by_contra free
      have candidate : ⟨entry.1, entry.2.lastUsed, entry.2.bytes⟩ ∈ state.candidates := by
        rw [PoolState.candidates, mem_map]
        refine ⟨entry, mem_filter.mpr ⟨cleared.subset mem, ?_⟩, rfl⟩
        simpa using free
      exact finished full _ (order.perm.symm.subset candidate) (mem_map.mpr ⟨entry, mem, rfl⟩)
    · rw [hasRoom, decide_eq_true_eq, unbounded]
      exact min_le_right _ _

end MakeRoom

/-! ## The budget -/

section Budget
variable (pool : DeviceResidency) {state next : PoolState T}

/-- The counter is what it should be and within the budget. -/
def Budgeted (state : PoolState T) : Prop :=
  state.Balanced ∧ state.usedBytes ≤ pool.capacityBytes

lemma Cleared.residentBytes_le (cleared : Cleared state next) :
    next.residentBytes ≤ state.residentBytes := by
  obtain ⟨gone, perm, _⟩ := cleared.gone
  rw [PoolState.residentBytes, PoolState.residentBytes,
    ← Ledger.total_perm Slot.bytes perm, Ledger.total_append]
  exact Nat.le_add_left _ _

lemma Cleared.reservedBytes_eq (cleared : Cleared state next) :
    next.reservedBytes = state.reservedBytes := by
  rw [PoolState.reservedBytes, cleared.inFlight]
  rfl

variable {pool} in
lemma Cleared.budgeted (cleared : Cleared state next) (before : Budgeted pool state)
    (balanced : next.Balanced) : Budgeted pool next := by
  refine ⟨balanced, ?_⟩
  have fewer := cleared.residentBytes_le
  have same := cleared.reservedBytes_eq
  have counter := before.1
  have bound := before.2
  rw [PoolState.Balanced] at counter balanced
  omega

/-- Charging `need` bytes that are now held keeps the books exactly if they
are within the budget: a sum that wraps is beyond it. -/
lemma charged_budgeted_iff {used need : Nat} (counter : next.usedBytes = wrapAdd used need)
    (held : next.residentBytes + next.reservedBytes = used + need) :
    Budgeted pool next ↔ used + need ≤ pool.capacityBytes := by
  constructor
  · intro budgeted
    rw [← held, ← budgeted.1]
    exact budgeted.2
  · intro fits
    have exactSum : next.usedBytes = used + need := by
      rw [counter]
      exact wrapAdd_of_lt (lt_of_le_of_lt fits pool.capacity_lt)
    refine ⟨?_, ?_⟩
    · rw [PoolState.Balanced, exactSum, held]
    · rw [exactSum]
      exact fits

variable {pool}

lemma hasRoom_iff (bounded : ¬ Unbounded pool) (need : Nat) : pool.hasRoom state need = true ↔
      state.usedBytes + need ≤ pool.capacityBytes := by
  have small : pool.capacityBytes < u64Limit - 1 :=
    Nat.lt_of_le_of_ne (Nat.le_sub_one_of_lt pool.capacity_lt) bounded
  rw [hasRoom, decide_eq_true_eq]
  exact ⟨add_le_of_satAdd_le small, satAdd_le_of_add_le⟩

/-! ### Touching and taking out -/

variable {now : Nat}

/-- A section that leaves the uploads as they are and the budget kept. -/
structure Quiet (pool : DeviceResidency) (state next : PoolState T) : Prop where
  keyed : next.Keyed
  inFlight : next.inFlight = state.inFlight
  keeps : Budgeted pool state → Budgeted pool next

lemma touched_quiet {slot : Slot T} (keyed : state.Keyed) (held : (key, slot) ∈ state.slots)
    (now : Nat) :
    Quiet pool state
      { state with
        slots := insert key { slot with lastUsed := now } state.slots } where
  keyed :=
    { slots := keys_insert_nodup keyed.slots
      inFlight := keyed.inFlight
      apart := by
        rw [OrderedMap.keys_insert_present (mem_keys.mpr ⟨slot, held⟩)]
        exact keyed.apart }
  inFlight := rfl
  keeps := by
    intro budgeted
    have same : Ledger.total Slot.bytes
        (insert key { slot with lastUsed := now } state.slots) =
          Ledger.total Slot.bytes state.slots :=
      Ledger.total_insert_same Slot.bytes keyed.slots held rfl
    refine ⟨?_, budgeted.2⟩
    rw [PoolState.Balanced, PoolState.residentBytes, same]
    exact budgeted.1

/-! ### The first section of `acquire` -/

variable {result : DeviceResidency.Reserved T}

lemma reserve_cases (keyed : state.Keyed) (order : VictimOrder state victims)
    (returns : pool.reserve victims key now state = (next, result)) :
    (∃ slot, (key, slot) ∈ state.slots ∧ result = .resident ∧
      next = { state with
          slots := insert key { slot with lastUsed := now } state.slots }) ∨
    (result = .busy ∧ key ∈ keys state.inFlight ∧
      next = state) ∨
    (key ∉ keys state.slots ∧ key ∉ keys state.inFlight ∧
      ∃ room, MadeRoom pool state pool.perSlotBytes room ∧
        ((room.2.2 = true ∧ (∃ evicted, result = .upload evicted) ∧
            next = { room.1 with
                usedBytes := wrapAdd room.1.usedBytes pool.perSlotBytes
                inFlight := insert key pool.perSlotBytes room.1.inFlight }) ∨
          (room.2.2 = false ∧ (∃ evicted, result = .refused evicted) ∧ next = room.1))) := by
  rw [reserve] at returns
  cases search : get key state.slots with
  | some slot =>
    rw [search] at returns
    obtain ⟨rfl, rfl⟩ := Prod.mk.inj returns
    exact .inl ⟨slot, OrderedMap.mem_of_get search, rfl, rfl⟩
  | none =>
    have absent := OrderedMap.get_eq_none.mp search
    rw [search] at returns
    by_cases flying : key ∈ keys state.inFlight
    · simp only [if_pos flying] at returns
      obtain ⟨rfl, rfl⟩ := Prod.mk.inj returns
      exact .inr (.inl ⟨rfl, flying, rfl⟩)
    · simp only [if_neg flying] at returns
      refine .inr (.inr ⟨absent, flying, _, makeRoom_made pool _ keyed order, ?_⟩)
      split_ifs at returns with fits
      · obtain ⟨rfl, rfl⟩ := Prod.mk.inj returns
        exact .inl ⟨fits, ⟨_, rfl⟩, rfl⟩
      · obtain ⟨rfl, rfl⟩ := Prod.mk.inj returns
        exact .inr ⟨Bool.eq_false_of_not_eq_true fits, ⟨_, rfl⟩, rfl⟩

/-- An `acquire` that returns from its first section leaves the uploads and
the budget as they are. -/
lemma reserve_declined (keyed : state.Keyed) (order : VictimOrder state victims)
    (returns : pool.reserve victims key now state = (next, result))
    (declined : ∀ evicted, result ≠ .upload evicted) :
    Quiet pool state next := by
  rcases reserve_cases keyed order returns with
    ⟨slot, held, _, rfl⟩ | ⟨_, _, rfl⟩ | ⟨_, _, room, made, ⟨_, ⟨evicted, upload⟩, _⟩ | ⟨_, _, rfl⟩⟩
  · exact touched_quiet keyed held now
  · exact ⟨keyed, rfl, id⟩
  · exact absurd upload (declined evicted)
  · exact ⟨made.cleared.keyed keyed, made.cleared.inFlight,
      fun budgeted => made.cleared.budgeted budgeted (made.balanced budgeted.1)⟩

/-- A reservation is within the budget, unless the test could not fail. -/
def ReserveCovered (pool : DeviceResidency) (state : PoolState T) : Prop :=
  Unbounded pool → state.usedBytes + pool.perSlotBytes ≤ pool.capacityBytes

/-- An `acquire` that goes on to upload has put a new key in flight. -/
lemma reserve_upload {evicted : List T} (keyed : state.Keyed) (order : VictimOrder state victims)
    (returns : pool.reserve victims key now state = (next, .upload evicted)) :
    key ∉ keys state.slots ∧ key ∉ keys state.inFlight ∧ next.Keyed ∧
      keys next.inFlight = keys state.inFlight ++ [key] ∧
      (Budgeted pool state → (Budgeted pool next ↔ ReserveCovered pool state)) := by
  rcases reserve_cases keyed order returns with
    ⟨_, _, never, _⟩ | ⟨never, _⟩ |
      ⟨absent, fresh, room, ⟨cleared, balance, verdict, _, whole⟩,
        ⟨fits, _, rfl⟩ | ⟨_, ⟨_, never⟩, _⟩⟩
  · cases never
  · cases never
  · have made := cleared.keyed keyed
    have new : key ∉ keys room.1.inFlight := by
      rw [cleared.inFlight]
      exact fresh
    have gone : key ∉ keys room.1.slots :=
      fun resident => absent (cleared.keys_subset resident)
    refine ⟨absent, fresh, ⟨made.slots, keys_insert_nodup made.inFlight, ?_⟩, ?_, ?_⟩
    · intro j flying
      rw [keys_insert_absent new, mem_append, mem_singleton] at flying
      rcases flying with old | rfl
      · exact made.apart j old
      · exact gone
    · rw [keys_insert_absent new, cleared.inFlight]
    · intro budgeted
      have balanced := balance budgeted.1
      rw [PoolState.Balanced, PoolState.reservedBytes] at balanced
      have added := Ledger.total_insert_absent id pool.perSlotBytes new
      rw [charged_budgeted_iff pool rfl ?_]
      · by_cases unbounded : Unbounded pool
        · rw [whole unbounded]
          exact ⟨fun fits _ => fits, fun covered => covered unbounded⟩
        · rw [fits, hasRoom_iff unbounded] at verdict
          exact ⟨fun _ largest => absurd largest unbounded, fun _ => verdict⟩
      · rw [PoolState.reservedBytes, added, balanced]
        exact (add_assoc _ _ _).symm
  · cases never

/-! ### The second section of `acquire` -/

/-- The reservations of the uploads of other experts. -/
def PoolState.reservedByOthers (key : ExpertKey) (state : PoolState T) : Nat :=
  Ledger.total id (state.inFlight.filter fun entry => entry.1 != key)

/-- Giving a reservation back. -/
lemma giveBack_spec (pool : DeviceResidency) (keyed : state.Keyed)
    (flying : key ∈ keys state.inFlight) :
    (pool.giveBack key state).Keyed ∧ (pool.giveBack key state).slots = state.slots ∧
      (pool.giveBack key state).isProtected = state.isProtected ∧
      (∀ j, j ∈ keys (pool.giveBack key state).inFlight ↔ j ∈ keys state.inFlight ∧ j ≠ key) ∧
      (pool.giveBack key state).reservedBytes = state.reservedByOthers key ∧
      (Budgeted pool state → Budgeted pool (pool.giveBack key state)) := by
  obtain ⟨reserved, left, removed⟩ := remove_isSome flying
  have perm := remove_perm removed
  have total := Ledger.total_remove id removed
  obtain ⟨fresh, once⟩ := keys_nodup_of_perm perm keyed.inFlight
  have others : ∀ j, j ∈ keys left ↔ j ∈ keys state.inFlight ∧ j ≠ key := by
    intro j
    rw [OrderedMap.keys, OrderedMap.keys, ← (perm.map Prod.fst).mem_iff, map_cons, mem_cons]
    constructor
    · intro mem
      refine ⟨.inr mem, ?_⟩
      rintro rfl
      exact fresh mem
    · rintro ⟨same | mem, different⟩
      · exact absurd same different
      · exact mem
  have filtered : (state.inFlight.filter fun entry => entry.1 != key).Perm left := by
    have kept : left.filter (fun entry => entry.1 != key) = left := by
      rw [filter_eq_self]
      intro entry mem
      rw [bne_iff_ne]
      rintro rfl
      exact fresh (mem_map.mpr ⟨entry, mem, rfl⟩)
    have image := perm.symm.filter fun entry => entry.1 != key
    rw [filter_cons_of_neg (by simp), kept] at image
    exact image
  rw [giveBack, removed]
  refine ⟨⟨keyed.slots, once, ?_⟩, rfl, rfl, others, (Ledger.total_perm id filtered).symm, ?_⟩
  · intro j mem
    exact keyed.apart j ((others j).mp mem).1
  · intro budgeted
    have counter := budgeted.1
    have bound := budgeted.2
    rw [PoolState.Balanced, PoolState.reservedBytes] at counter
    rw [Budgeted, PoolState.Balanced, PoolState.reservedBytes]
    simp only [id, PoolState.residentBytes] at counter total ⊢
    omega

/-- A payload is within the budget beside the other uploads, or a protected
slot is there for which the payload is refused if it is not.  With the largest
budget nothing is refused, so that everything has to be within it. -/
def SettleCovered (pool : DeviceResidency) (key : ExpertKey) (bytes : Nat)
    (state : PoolState T) : Prop :=
  (Unbounded pool → state.residentBytes + state.reservedByOthers key + bytes ≤ pool.capacityBytes) ∧
  (¬ Unbounded pool → state.reservedByOthers key + bytes ≤ pool.capacityBytes ∨
      ∃ entry ∈ state.slots, state.isProtected entry.1 = true)

/-- A payload that is kept: its bytes come on top of what is held. -/
lemma inserted_budgeted_iff {payload : T} (balanced : next.Balanced)
    (absent : key ∉ keys next.slots) (bytes : Nat) :
    Budgeted pool
        { next with
          usedBytes := wrapAdd next.usedBytes bytes
          slots := insert key
            { payload := payload
              bytes := bytes
              lastUsed := now
              generation := now } next.slots } ↔
      next.usedBytes + bytes ≤ pool.capacityBytes := by
  apply charged_budgeted_iff pool rfl
  rw [PoolState.Balanced] at balanced
  rw [PoolState.residentBytes, Ledger.total_insert_absent _ _ absent, balanced]
  exact add_right_comm _ _ _

variable [DeviceExpertSlot T]

/-- The books after a payload was settled. -/
lemma settle_budgeted {payload : T} (keyed : state.Keyed)
    (flying : key ∈ keys state.inFlight)
    (order : VictimOrder (pool.giveBack key state) victims) (budgeted : Budgeted pool state) :
    Budgeted pool (pool.settle victims key (some payload) now state).1 ↔ SettleCovered pool key
        (deviceBytes payload).toNat state := by
  obtain ⟨returnedKeyed, slots, shields, _, others, keeps⟩ := giveBack_spec pool keyed flying
  have returned := keeps budgeted
  obtain ⟨cleared, balance, verdict, remaining, all⟩ := makeRoom_made pool
    (deviceBytes payload).toNat returnedKeyed order
  generalize makes : pool.makeRoom victims (pool.giveBack key state) (deviceBytes payload).toNat =
    room at cleared balance verdict remaining all
  have balanced := balance returned.1
  have absent : key ∉ keys room.1.slots := by
    intro resident
    have early := cleared.keys_subset resident
    rw [slots] at early
    exact keyed.apart key flying early
  have counter := balanced
  rw [PoolState.Balanced, cleared.reservedBytes_eq, others] at counter
  rw [settle, makes]
  by_cases unbounded : Unbounded pool
  · -- the test never fails, so nothing is evicted or refused
    have whole := returned.1
    rw [PoolState.Balanced, others, PoolState.residentBytes, slots] at whole
    obtain rfl := all unbounded
    simp only [Bool.not_true, Bool.false_and, Bool.false_eq_true, if_false]
    rw [inserted_budgeted_iff returned.1 absent, whole]
    exact ⟨fun fits => ⟨fun _ => fits, fun bounded => absurd unbounded bounded⟩,
      fun covered => covered.1 unbounded⟩
  · cases fits : room.2.2 with
    | true =>
      rw [fits, hasRoom_iff unbounded] at verdict
      simp only [Bool.not_true, Bool.false_and, Bool.false_eq_true, if_false]
      rw [inserted_budgeted_iff balanced absent]
      refine ⟨fun _ => ⟨fun largest => absurd largest unbounded,
        fun _ => .inl ?_⟩, fun _ => verdict⟩
      rw [counter] at verdict
      omega
    | false =>
      have full := (hasRoom_iff unbounded _).not.mp
        (by rw [verdict, fits]; exact Bool.false_ne_true)
      cases left : room.1.slots with
      | nil =>
        -- kept beyond the budget: no slot is left, other uploads are
        rw [PoolState.residentBytes, left, Ledger.total_nil, zero_add] at counter
        simp only [Bool.not_false, isEmpty_nil, Bool.not_true,
          Bool.and_false, Bool.false_eq_true, if_false]
        rw [← left, inserted_budgeted_iff balanced absent]
        refine ⟨fun within => absurd within full, ?_⟩
        intro covered
        rcases covered.2 unbounded with within | ⟨entry, mem, shield⟩
        · rw [counter]
          exact within
        · rw [← slots] at mem
          rw [← shields] at shield
          have kept := cleared.kept mem shield
          rw [left] at kept
          cases kept
      | cons entry rest =>
        simp only [Bool.not_false, isEmpty_cons, Bool.and_self, if_true]
        have inside : entry ∈ room.1.slots := by
          rw [left]
          exact mem_cons_self
        have shield := remaining fits entry inside
        have mem := cleared.subset inside
        rw [shields] at shield
        rw [slots] at mem
        exact ⟨fun _ => ⟨fun largest => absurd largest unbounded,
            fun _ => .inr ⟨entry, mem, shield⟩⟩,
          fun _ => cleared.budgeted returned balanced⟩

/-- Settling ends the upload, whatever becomes of the payload. -/
lemma settle_keyed {payload : Option T} (keyed : state.Keyed)
    (flying : key ∈ keys state.inFlight)
    (order : VictimOrder (pool.giveBack key state) victims) :
    (pool.settle victims key payload now state).1.Keyed ∧
      (pool.settle victims key payload now state).1.inFlight =
        (pool.giveBack key state).inFlight := by
  obtain ⟨returnedKeyed, slots, _, flights, _, _⟩ := giveBack_spec pool keyed flying
  cases payload with
  | none => exact ⟨returnedKeyed, rfl⟩
  | some payload =>
    have cleared := (makeRoom_made pool (deviceBytes payload).toNat returnedKeyed order).cleared
    have made := cleared.keyed returnedKeyed
    simp only [settle]
    split
    · exact ⟨made, cleared.inFlight⟩
    · refine ⟨⟨keys_insert_nodup made.slots, made.inFlight, ?_⟩, cleared.inFlight⟩
      intro j inside resident
      obtain ⟨slot, mem⟩ := mem_keys.mp resident
      rcases OrderedMap.mem_insert.mp mem with new | ⟨old, _⟩
      · rw [cleared.inFlight] at inside
        exact ((flights j).mp inside).2 (congrArg Prod.fst new)
      · exact made.apart j inside (mem_keys.mpr ⟨slot, old⟩)

end Budget

end

open Function (exists_update_iff update update_apply)
open OrderedMap (get keys mem_keys remove)

variable {T Caller : Type}

/-- No expert is being uploaded by two callers. -/
def SingleUploader (system : System Caller T) : Prop :=
  ∀ first second key, system.uploading first = some key →
    system.uploading second = some key → first = second

/-- What holds between the locked sections, within the budget or not. -/
structure Sound (system : System Caller T) : Prop where
  keyed : system.state.Keyed
  carried : ∀ key, key ∈ keys system.state.inFlight ↔ ∃ caller, system.uploading caller = some key
  single : SingleUploader system

lemma init_sound : Sound (System.init : System Caller T) where
  keyed :=
    { slots := nodup_nil
      inFlight := nodup_nil
      apart := fun _ inside => absurd inside (not_mem_nil) }
  carried := by
    intro key
    simp [System.init, PoolState.empty, OrderedMap.keys]
  single := by
    intro first second key carried
    cases carried

lemma init_budgeted (pool : DeviceResidency) :
    Budgeted pool (System.init : System Caller T).state :=
  ⟨rfl, Nat.zero_le _⟩

section Small

/-! ## The sections that reserve nothing -/

variable (pool : DeviceResidency) {state : PoolState T}

lemma lookup_quiet (keyed : state.Keyed) (key : ExpertKey) (now : Nat) :
    Quiet pool state (state.lookup key now).1 := by
  rw [PoolState.lookup]
  cases search : get key state.slots with
  | none => exact ⟨keyed, rfl, id⟩
  | some slot => exact touched_quiet keyed (OrderedMap.mem_of_get search) now

lemma release_quiet (keyed : state.Keyed) (key : ExpertKey) :
    Quiet pool state (state.release key).1 := by
  rw [PoolState.release]
  split
  · exact ⟨keyed, rfl, id⟩
  · cases removed : remove key state.slots with
    | none => exact ⟨keyed, rfl, id⟩
    | some found =>
      obtain ⟨slot, slots⟩ := found
      have perm := OrderedMap.remove_perm removed
      refine ⟨⟨(OrderedMap.keys_nodup_of_perm perm keyed.slots).2, keyed.inFlight, ?_⟩, rfl, ?_⟩
      · intro j flying resident
        apply keyed.apart j flying
        exact (perm.map Prod.fst).subset (mem_cons_of_mem _ resident)
      · intro budgeted
        exact ⟨remove_balanced budgeted.1 removed, le_trans (Nat.sub_le _ _) budgeted.2⟩

lemma lease_quiet (keyed : state.Keyed) (key : ExpertKey) (generation : Nat) :
    Quiet pool state (state.lease key generation).1 := by
  rw [PoolState.lease]
  split
  · exact ⟨⟨keyed.slots, keyed.inFlight, keyed.apart⟩, rfl, id⟩
  · exact ⟨keyed, rfl, id⟩

end Small

/-! ## One step -/

variable [DecidableEq Caller] {system : System Caller T} {caller : Caller}

/-- A caller starts an upload nobody else is doing. -/
lemma uploading_update_single (sound : Sound system)
    (fresh : key ∉ keys system.state.inFlight) :
    ∀ first second j, update system.uploading caller (some key) first = some j →
      update system.uploading caller (some key) second = some j → first = second := by
  intro first second j one two
  have nobody : ∀ someone, system.uploading someone ≠ some key :=
    fun someone mine => fresh ((sound.carried key).mpr ⟨someone, mine⟩)
  rw [update_apply] at one two
  split_ifs at one two with first second
  · rw [first, second]
  · exact absurd (two.trans one.symm) (nobody _)
  · exact absurd (one.trans two.symm) (nobody _)
  · exact sound.single _ _ j one two

variable {next : PoolState T}

lemma reserve_sound (sound : Sound system) (keyed : next.Keyed)
    (idle : system.uploading caller = none) (fresh : key ∉ keys system.state.inFlight)
    (added : keys next.inFlight = keys system.state.inFlight ++ [key]) : Sound
      { system with
        state := next
        uploading := update system.uploading caller (some key) } where
  keyed := keyed
  carried := by
    intro j
    show j ∈ keys next.inFlight ↔ _
    rw [added, mem_append, mem_singleton, sound.carried j,
      exists_update_iff _ fun _ carried => carried = some j, Option.some.injEq, or_comm,
      eq_comm]
    refine or_congr_right (exists_congr fun someone => (and_iff_right_of_imp ?_).symm)
    rintro mine rfl
    rw [idle] at mine
    cases mine
  single := uploading_update_single sound fresh

lemma settle_sound (sound : Sound system) (keyed : next.Keyed)
    (mine : system.uploading caller = some key)
    (left : ∀ other, other ∈ keys next.inFlight ↔
      other ∈ keys system.state.inFlight ∧ other ≠ key) :
    Sound
      { system with
        state := next
        uploading := update system.uploading caller none } where
  keyed := keyed
  carried := by
    intro other
    show other ∈ keys next.inFlight ↔ _
    rw [left other, sound.carried other, exists_update_iff _ fun _ carried => carried = some other]
    constructor
    · rintro ⟨⟨someone, theirs⟩, different⟩
      refine .inr ⟨someone, ?_, theirs⟩
      rintro rfl
      rw [mine] at theirs
      exact different (Option.some.inj theirs).symm
    · rintro (idle | ⟨someone, apart, theirs⟩)
      · cases idle
      · refine ⟨⟨someone, theirs⟩, ?_⟩
        rintro rfl
        exact apart (sound.single someone caller other theirs mine)
  single := by
    intro first second other one two
    have still : ∀ {someone : Caller}, update system.uploading caller none someone = some other →
          system.uploading someone = some other := by
      intro someone theirs
      rw [update_apply] at theirs
      split_ifs at theirs
      exact theirs
    exact sound.single first second other (still one) (still two)

variable [DeviceExpertSlot T] {pool : DeviceResidency} {later : System Caller T}
  {action : Action Caller T}

/-- What the budget needs of a locked section, said of the state it starts
in. -/
def Covered (pool : DeviceResidency) (system : System Caller T) : Action Caller T → Prop
  | .acquire _ key _ _ =>
    key ∉ keys system.state.slots → key ∉ keys system.state.inFlight →
      ReserveCovered pool system.state
  | .settle caller (some payload) _ _ =>
    ∀ key, system.uploading caller = some key →
      SettleCovered pool key (DeviceExpertSlot.deviceBytes payload).toNat system.state
  | _ => True

/-- A locked section keeps the system sound; one that starts within the budget
ends within it exactly if it is covered. -/
structure Stepped (pool : DeviceResidency) (system : System Caller T) (action : Action Caller T)
    (later : System Caller T) : Prop where
  sound : Sound later
  budgeted_iff : Budgeted pool system.state →
    (Budgeted pool later.state ↔ Covered pool system action)

omit [DecidableEq Caller] in
lemma Quiet.stepped (quiet : Quiet pool system.state later.state) (sound : Sound system)
    (uploading : later.uploading = system.uploading) (covered : Covered pool system action) :
    Stepped pool system action later where
  sound.keyed := quiet.keyed
  sound.carried := by
    rw [quiet.inFlight, uploading]
    exact sound.carried
  sound.single := by
    rw [SingleUploader, uploading]
    exact sound.single
  budgeted_iff budgeted := iff_of_true (quiet.keeps budgeted) covered

lemma step_stepped (step : Step pool system action later) (sound : Sound system) :
    Stepped pool system action later := by
  have keyed := sound.keyed
  cases step with
  | reserve idle order returns =>
    obtain ⟨absent, fresh, nextKeyed, added, exactly⟩ := reserve_upload keyed order returns
    refine ⟨reserve_sound sound nextKeyed idle fresh added, fun budgeted => ?_⟩
    rw [exactly budgeted]
    exact ⟨fun covered _ _ => covered, fun covered => covered absent fresh⟩
  | decline idle order returns declined =>
    refine (reserve_declined keyed order returns declined).stepped sound rfl ?_
    intro absent fresh unbounded
    -- with the largest budget a new expert is never declined
    rcases reserve_cases keyed order returns with
      ⟨slot, held, _⟩ | ⟨_, flying, _⟩ |
        ⟨_, _, room, made, ⟨_, ⟨evicted, upload⟩, _⟩ | ⟨full, _⟩⟩
    · exact absurd (mem_keys.mpr ⟨slot, held⟩) absent
    · exact absurd flying fresh
    · exact absurd upload (declined evicted)
    · rw [made.unbounded unbounded] at full
      cases full
  | @settle caller key payload now victims mine order =>
    have flying := (sound.carried key).mpr ⟨caller, mine⟩
    obtain ⟨nextKeyed, same⟩ := settle_keyed keyed flying order
    obtain ⟨_, _, _, left, _, keeps⟩ := giveBack_spec pool keyed flying
    rw [← same] at left
    refine ⟨settle_sound sound nextKeyed mine left, fun budgeted => ?_⟩
    cases payload with
    | none => exact iff_of_true (keeps budgeted) trivial
    | some payload =>
      rw [settle_budgeted keyed flying order budgeted]
      constructor
      · intro covered j theirs
        rw [mine] at theirs
        rw [← Option.some.inj theirs]
        exact covered
      · intro covered
        exact covered key mine
  | lookup => exact (lookup_quiet pool keyed _ _).stepped sound rfl trivial
  | release => exact (release_quiet pool keyed _).stepped sound rfl trivial
  | markHot | unmarkHot | replaceHotSet | unlease mine =>
    exact Quiet.stepped ⟨⟨keyed.slots, keyed.inFlight, keyed.apart⟩, rfl, id⟩ sound rfl trivial
  | @lease caller other asked next idle returns | @leaseMissed caller other asked next returns =>
    have quiet := lease_quiet pool keyed other asked
    rw [returns] at quiet
    exact quiet.stepped sound rfl trivial

/-! ## Whole runs -/

variable {steps : List (Taken Caller T)}

lemma run_sound (run : Run pool system steps) (sound : Sound system) :
    ∀ taken ∈ steps, Sound taken.after := by
  induction run with
  | done => exact nofun
  | next step run ih =>
    have nextSound := (step_stepped step sound).sound
    rw [forall_mem_cons]
    exact ⟨nextSound, ih nextSound⟩

lemma run_budgeted_iff_covered (run : Run pool system steps) (sound : Sound system)
    (budgeted : Budgeted pool system.state) : (∀ taken ∈ steps, Budgeted pool taken.after.state) ↔
      ∀ taken ∈ steps, Covered pool taken.before taken.action := by
  induction run with
  | done => simp
  | next step run ih =>
    obtain ⟨nextSound, exactly⟩ := step_stepped step sound
    rw [forall_mem_cons, forall_mem_cons, exactly budgeted]
    apply and_congr_right
    intro covered
    exact ih nextSound ((exactly budgeted).mpr covered)

/-- From the empty pool, over any interleaving: no two callers ever upload the
same expert, and the counter is the bytes held and within the budget after
every section exactly if every section was covered. -/
theorem budget_kept_iff {steps : List (Taken Caller T)} (run : Run pool System.init steps) :
    (∀ taken ∈ steps, SingleUploader taken.after) ∧
      ((∀ taken ∈ steps, Budgeted pool taken.after.state) ↔
        ∀ taken ∈ steps, Covered pool taken.before taken.action) :=
  ⟨fun taken inside => (run_sound run init_sound taken inside).single,
    run_budgeted_iff_covered run init_sound (init_budgeted pool)⟩

/-! ### Two uploads at once -/

instance : DeviceExpertSlot UInt64 where
  deviceBytes := id

/-- A budget of ten bytes, four of which each upload reserves. -/
def smallPool : DeviceResidency := .new 10 4

def reservedFor (keys : List ExpertKey) : PoolState UInt64 :=
  { slots := []
    inFlight := keys.map fun key => (key, 4)
    hot := []
    leased := []
    usedBytes := 4 * keys.length }

def oneUploading : System Bool UInt64 :=
  { state := reservedFor [(0, 0)]
    uploading := update (fun _ => none) false (some (0, 0))
    leasing := fun _ => none }

def twoUploading : System Bool UInt64 :=
  { state := reservedFor [(0, 0), (0, 1)]
    uploading := update oneUploading.uploading true (some (0, 1))
    leasing := fun _ => none }

/-- The first of two uploads settles, beside the four bytes still reserved for
the second. -/
def settledWith (bytes : UInt64) : System Bool UInt64 :=
  { twoUploading with
    state := (smallPool.settle [] (0, 0) (some bytes) 2 twoUploading.state).1
    uploading := update twoUploading.uploading false none }

def twoUploads (bytes : UInt64) : List (Taken Bool UInt64) :=
  [⟨.init, .acquire false (0, 0) 0 [], oneUploading⟩,
    ⟨oneUploading, .acquire true (0, 1) 1 [], twoUploading⟩,
    ⟨twoUploading, .settle false (some bytes) 2 [], settledWith bytes⟩]

lemma noVictims (state : PoolState UInt64) (empty : state.slots = []) : VictimOrder state [] where
  perm := by
    rw [PoolState.candidates, empty]
    exact List.Perm.refl _
  oldestFirst := List.Pairwise.nil

lemma oneUploading_step : Step smallPool System.init (.acquire false (0, 0) 0 []) oneUploading :=
  .reserve rfl (noVictims _ rfl) rfl

lemma twoUploads_run (bytes : UInt64) : Run smallPool System.init (twoUploads bytes) :=
  .next oneUploading_step (.next (.reserve rfl (noVictims _ rfl) rfl)
    (.next (.settle rfl (noVictims _ rfl)) .done))

/-- A payload of six bytes, two more than were reserved, is within the budget
beside the other reservation. -/
theorem two_uploads_budgeted : Run smallPool System.init (twoUploads 6) ∧
      (settledWith 6).state.usedBytes = 10 ∧
      ∀ taken ∈ twoUploads 6, Budgeted smallPool taken.after.state := by
  refine ⟨twoUploads_run 6, rfl, (budget_kept_iff (twoUploads_run 6)).2.mpr ?_⟩
  have bounded : ¬ Unbounded smallPool := by
    rw [Unbounded]
    decide
  simp only [twoUploads, forall_mem_cons]
  refine ⟨?_, ?_, ?_, nofun⟩
  · exact fun _ _ unbounded => absurd unbounded bounded
  · exact fun _ _ unbounded => absurd unbounded bounded
  · intro key uploading
    obtain rfl : (0, 0) = key := Option.some.inj uploading
    exact ⟨fun unbounded => absurd unbounded bounded, fun _ => .inl (by decide)⟩

/-- A payload of eight bytes, less than the budget, is kept beside four
reserved ones although the budget is ten. -/
theorem two_uploads_overcommit : Run smallPool System.init (twoUploads 8) ∧
      8 ≤ smallPool.capacityBytes ∧
      smallPool.capacityBytes = 10 ∧
      (settledWith 8).state.usedBytes = 12 ∧
      (settledWith 8).state.residentBytes + (settledWith 8).state.reservedBytes = 12 :=
  ⟨twoUploads_run 8, by decide, rfl, rfl, rfl⟩

end Joshua.Residency
