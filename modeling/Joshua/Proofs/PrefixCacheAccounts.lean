/-
Module: Joshua.Proofs.PrefixCacheAccounts
Purpose: The books of the prefix cache.  One invariant relates the recorded
  byte count, the keys, the roots and the event counters to the entries held;
  every operation is total on a cache that satisfies it and keeps it.  Equal
  keys mean equal prefixes in the same namespace, and equal namespaces equal
  tenants, as far as the hash function does not collide on the strings that
  are hashed.
Trusted boundary: none
-/
import Joshua.Model.PrefixCache

namespace Joshua.PrefixKey
open Joshua.Foundation List
open ChainBuilder (fromTip new)

variable (sha256 : Bytes → Digest)

/-! ## The chain as a chain of keys -/

/-- The step of the chain. -/
def nextKey (tip : Digest) (chunk : List Token) : Digest :=
  sha256 (stepPreimage tip chunk)

lemma pushAll_eq (builder : ChainBuilder) (chunks : List (List Token)) :
    builder.pushAll sha256 chunks = chainFrom (nextKey sha256) builder.tip chunks := by
  induction chunks generalizing builder with
  | nil => rfl
  | cons chunk rest ih =>
    exact congrArg (nextKey sha256 builder.tip chunk :: ·) (ih ⟨nextKey sha256 builder.tip chunk⟩)

/-- The strings hashed for a salt and a chain. -/
def hashedInputs (parts : SaltParts) (tokens : List Token) : List (List UInt8) :=
  parts.preimage :: seedPreimage (parts.salt sha256) :: (chainInputs (nextKey sha256)
      (new sha256 (parts.salt sha256)).tip
      (chunksExact hashChunk tokens)).map fun input => stepPreimage input.1 input.2

/-- No two of the strings have the same digest. -/
def CollisionFree (inputs : List (List UInt8)) : Prop :=
  ∀ first ∈ inputs, ∀ second ∈ inputs, sha256 first = sha256 second → first = second

variable {sha256}

/-! ## Taking the hashed strings apart -/

lemma leBytes_token_injective (left right : Token)
    (same : leBytes 4 left.toNat = leBytes 4 right.toNat) : left = right :=
  UInt32.toNat_inj.mp (leBytes_injective left.toNat_lt right.toNat_lt same)

variable {left right : Digest}

lemma stepPreimage_injective {first second : List Token} (count : first.length = second.length)
    (same : stepPreimage left first = stepPreimage right second) :
    left = right ∧ first = second := by
  obtain ⟨tips, chunks⟩ := List.append_inj same (by simp)
  exact ⟨Vector.toList_inj.mp tips, flatMap_injective
    (fun token => leBytes_length 4 token.toNat) leBytes_token_injective
    count chunks⟩

lemma seedPreimage_injective (same : seedPreimage left = seedPreimage right) : left = right :=
  Vector.toList_inj.mp (append_cancel_left same)

lemma slices_injective {first second : List Slice}
    (same : (first.map Subtype.val).flatMap lengthPrefixed =
      (second.map Subtype.val).flatMap lengthPrefixed) : first = second := by
  have fits : ∀ slices : List Slice, ∀ field ∈ slices.map Subtype.val, field.length < 256 ^ 8 :=
    fun slices => forall_mem_map.mpr fun slice _ => slice.2
  exact map_injective_iff.mpr Subtype.val_injective
    (fields_injective (fits first) (fits second) same)

lemma preimage_injective {first second : SaltParts}
    (same : first.preimage = second.preimage) : first = second := by
  have parts := @slices_injective
    [first.modelFingerprint, first.tokenizerDigest, first.templateId, first.tenant]
    [second.modelFingerprint, second.tokenizerDigest, second.templateId, second.tenant]
    (append_cancel_left same)
  cases first
  cases second
  simpa using parts

lemma length_of_mem_chainInputs {seed : Digest} {chunks : List (List Token)}
    {input : Digest × List Token} (mem : input ∈ chainInputs (nextKey sha256) seed chunks) :
    input.2 ∈ chunks := by
  induction chunks generalizing seed with
  | nil => cases mem
  | cons chunk rest ih =>
    rcases mem_cons.mp mem with rfl | later
    · exact mem_cons_self
    · exact mem_cons_of_mem _ (ih later)

/-! ## Shared chunks -/

section Shared
variable {first second : SaltParts} {left right : List Token}
  (free : CollisionFree sha256 (hashedInputs sha256 first left ++ hashedInputs sha256 second right))
include free

lemma salt_injective (same : first.salt sha256 = second.salt sha256) : first = second :=
  preimage_injective (free _ (mem_append_left _ mem_cons_self) _
    (mem_append_right _ mem_cons_self) same)

lemma seed_injective
    (same : (new sha256 (first.salt sha256)).tip =
      (new sha256 (second.salt sha256)).tip) : first = second :=
  salt_injective free (seedPreimage_injective (free _
    (mem_append_left _ (mem_cons_of_mem _ mem_cons_self)) _
    (mem_append_right _ (mem_cons_of_mem _ mem_cons_self))
    same))

lemma separates_of_free : Separates (nextKey sha256)
      (chainInputs (nextKey sha256) (new sha256 (first.salt sha256)).tip
        (chunksExact hashChunk left))
      (chainInputs (nextKey sha256) (new sha256 (second.salt sha256)).tip
        (chunksExact hashChunk right)) := by
  intro one inOne two inTwo same
  have strings : stepPreimage one.1 one.2 = stepPreimage two.1 two.2 := by
    refine free _ (mem_append_left _ ?_) _ (mem_append_right _ ?_) same
    · exact mem_cons_of_mem _ (mem_cons_of_mem _ (mem_map_of_mem inOne))
    · exact mem_cons_of_mem _ (mem_cons_of_mem _ (mem_map_of_mem inTwo))
  have sizeOne : one.2.length = hashChunk :=
    length_of_mem_chunksExact (length_of_mem_chainInputs inOne)
  have sizeTwo : two.2.length = hashChunk :=
    length_of_mem_chunksExact (length_of_mem_chainInputs inTwo)
  obtain ⟨tips, chunks⟩ := stepPreimage_injective (sizeOne.trans sizeTwo.symm) strings
  exact Prod.ext tips chunks

end Shared

section
variable (salt : Digest)

/-- A chain goes on from the last key of the chain of its complete chunks, or
from the seed when there is none. -/
lemma chain_split (tokens : List Token) {count : Nat} (lt : count * hashChunk ≤ tokens.length) :
    chain sha256 salt tokens = chain sha256 salt (tokens.take (count * hashChunk)) ++
        (fromTip ((chain sha256 salt (tokens.take (count * hashChunk))).getLastD
            (new sha256 salt).tip)).pushAll sha256
          (chunksExact hashChunk (tokens.drop (count * hashChunk))) := by
  simp only [chain, pushAll_eq]
  rw [chunksExact_split (by decide) tokens lt, chainFrom_append]
  rfl

lemma length_chain (tokens : List Token) :
    (chain sha256 salt tokens).length = tokens.length / hashChunk := by
  rw [chain, pushAll_eq, length_chainFrom, length_chunksExact]

/-- More tokens leave the keys of complete chunks as they are. -/
lemma chain_append (tokens rest : List Token) :
    chain sha256 salt tokens <+: chain sha256 salt (tokens ++ rest) := by
  have within := Nat.div_mul_le_self tokens.length hashChunk
  have short : (tokens.drop (tokens.length / hashChunk * hashChunk)).length < hashChunk := by
    rw [length_drop, ← Nat.mod_eq_sub_div_mul]
    exact Nat.mod_lt _ (by decide)
  rw [chain_split salt tokens within, chunksExact_of_short short, ChainBuilder.pushAll, append_nil,
    chain_split salt (tokens ++ rest) (within.trans (by simp)), take_append_of_le_length within]
  exact prefix_append _ _

/-- A key of the chain is the last key of the chain of the tokens it
covers. -/
lemma getElem?_chain {tokens : List Token} {i : Nat}
    (inside : (i + 1) * hashChunk ≤ tokens.length) :
    (chain sha256 salt tokens)[i]? = (chain sha256 salt
        (tokens.take ((i + 1) * hashChunk))).getLast? := by
  have size : (chain sha256 salt (tokens.take ((i + 1) * hashChunk))).length = i + 1 := by
    rw [length_chain, length_take, min_eq_left inside, Nat.mul_div_cancel _ (by decide)]
  rw [chain_split salt tokens inside,
    List.getElem?_append_left (by omega), List.getLast?_eq_getElem?, size, Nat.add_sub_cancel]

/-- The storage keys are the keys of all complete storage chunks, never hashed
again. -/
theorem storageKeys_chain (tokens : List Token) :
    (storageKeys (chain sha256 salt tokens)).length = tokens.length / storageChunk ∧
    storageKeys (chain sha256 salt tokens) =
      (List.range (tokens.length / storageChunk)).filterMap fun boundary =>
        (chain sha256 salt (tokens.take ((boundary + 1) * storageChunk))).getLast? := by
  have count : (chain sha256 salt tokens).length /
      (storageChunk / hashChunk) = tokens.length / storageChunk := by
    rw [length_chain, Nat.div_div_eq_div_mul]
    rfl
  have steps (boundary : Nat) : boundary * (storageChunk / hashChunk) +
      (storageChunk / hashChunk - 1) = boundary * 4 + 3 := rfl
  rw [storageKeys, count]
  constructor
  · refine (filterMap_length_eq_length.mpr fun boundary mem => ?_).trans length_range
    have below : boundary < (chain sha256 salt tokens).length / 4 :=
      (mem_range.mp mem).trans_eq count.symm
    rw [steps, List.getElem?_eq_getElem (by omega)]
    rfl
  · refine filterMap_congr fun boundary mem => ?_
    have below : boundary < tokens.length / storageChunk := mem_range.mp mem
    have enough : (boundary + 1) * storageChunk ≤ tokens.length :=
      (Nat.le_div_iff_mul_le (by decide)).mp below
    have same : (boundary + 1) * storageChunk = (boundary * 4 + 3 + 1) * hashChunk := by
      show (boundary + 1) * 64 = (boundary * 4 + 4) * 16
      omega
    rw [same] at enough ⊢
    rw [steps, getElem?_chain salt enough]

end

/-- Two chains share as many keys as their tokens share complete chunks if the
salts have equal parts, and none otherwise; and a chain can be built from a
stored key on. -/
theorem sharedChunks_chain (sha256 : List UInt8 → Digest)
    (first second : SaltParts) (left right : List Token)
    (free : CollisionFree sha256
      (hashedInputs sha256 first left ++ hashedInputs sha256 second right)) :
    sharedChunks (chain sha256 (first.salt sha256) left) (chain sha256 (second.salt sha256) right) =
      (if first = second then commonLength left right / hashChunk else 0) ∧
    ∀ count, count * hashChunk ≤ left.length → chain sha256 (first.salt sha256) left =
        chain sha256 (first.salt sha256) (left.take (count * hashChunk)) ++
          (fromTip ((chain sha256 (first.salt sha256)
              (left.take (count * hashChunk))).getLastD
                (new sha256 (first.salt sha256)).tip)).pushAll
            sha256 (chunksExact hashChunk (left.drop (count * hashChunk)))
    := by
  refine ⟨?_, fun count inside => chain_split _ left inside⟩
  rw [sharedChunks, commonLength_eq_takeWhile, chain, chain, pushAll_eq,
    pushAll_eq, commonLength_chainFrom _ (separates_of_free free),
    commonLength_chunksExact (by decide)]
  by_cases same : first = second
  · rw [if_pos same, if_pos (by rw [same])]
  · rw [if_neg same, if_neg fun seeds => same (seed_injective free seeds)]

/-- A hash function that tells strings apart by their length and value. -/
def weakHash (input : List UInt8) : Digest :=
  Vector.replicate 32 (UInt8.ofNat (input.length + leValue input % 251))

def onlyTenant (tenant : UInt8) : SaltParts :=
  ⟨⟨[], by decide⟩, ⟨[], by decide⟩, ⟨[], by decide⟩, ⟨[tenant], Nat.one_lt_two_pow (by decide)⟩⟩

/-- Two prompts of one tenant that share one chunk of two. -/
theorem sharedChunks_chain_of_prompts : CollisionFree weakHash
        (hashedInputs weakHash (onlyTenant 1) ((List.range 32).map UInt32.ofNat) ++
          hashedInputs weakHash (onlyTenant 1) ((List.range 20).map UInt32.ofNat)) ∧
      sharedChunks
        (chain weakHash ((onlyTenant 1).salt weakHash) ((List.range 32).map UInt32.ofNat))
        (chain weakHash ((onlyTenant 1).salt weakHash) ((List.range 20).map UInt32.ofNat)) = 1 := by
  have free : CollisionFree weakHash
      (hashedInputs weakHash (onlyTenant 1) ((List.range 32).map UInt32.ofNat) ++
        hashedInputs weakHash (onlyTenant 1) ((List.range 20).map UInt32.ofNat)) := by
    unfold CollisionFree
    decide +kernel
  refine ⟨free, ?_⟩
  rw [(sharedChunks_chain weakHash _ _ _ _ free).1]
  decide +kernel

end Joshua.PrefixKey

namespace Joshua.Affinity
open Joshua.Foundation List
open PrefixKey (CollisionFree leBytes_token_injective slices_injective weakHash)

/-- The parts whose digest the namespace of a request is. -/
def lastParts (sha256 : List UInt8 → Digest) (headers : HeaderMap) (context : Option UInt32) :
    List Slice :=
  context.elim [owner headers, hint headers, contextBytes 0] fun number =>
    [scopeBytes (cacheScope sha256 headers context), contextBytes number]

/-- The strings hashed for a namespace. -/
def hashedInputs (sha256 : List UInt8 → Digest) (headers : HeaderMap) (context : Option UInt32) :
    List (List UInt8) :=
  [[owner headers, hint headers, contextBytes (context.getD 0)],
    lastParts sha256 headers context].map fun parts =>
      (parts.map Subtype.val).flatMap lengthPrefixed

lemma namespaceOf_eq (sha256 : Bytes → Digest) (headers : HeaderMap) (context : Option UInt32) :
    namespaceOf sha256 (some (cacheScope sha256 headers context)) context =
      some (digest sha256 (lastParts sha256 headers context)) := by
  cases context <;> rfl

/-- Requests whose hashed strings do not collide have the same namespace
exactly if they have the same key, hint and context; and a router that knows
the scope and the key derives the namespace that its worker derives. -/
theorem namespaces_isolate (sha256 : List UInt8 → Digest) (left right : HeaderMap)
    (first second : Option UInt32)
    (free : CollisionFree sha256
      (hashedInputs sha256 left first ++ hashedInputs sha256 right second)) :
    (namespaceOf sha256 (some (cacheScope sha256 left first)) first =
        namespaceOf sha256 (some (cacheScope sha256 right second)) second ↔
      owner left = owner right ∧ hint left = hint right ∧ first = second) ∧
    ∀ (scope : Scope) (context : Option UInt32) (key : Option Slice) (headers : HeaderMap),
      owner headers = key.getD emptySlice → headers.cacheScope = some (encode scope) →
      namespaceOf sha256 (some (cacheScope sha256 headers context)) context =
        some (workerNamespace sha256 scope context key) := by
  constructor
  · rw [namespaceOf_eq, namespaceOf_eq, Option.some.injEq]
    constructor
    · intro same
      have parts : lastParts sha256 left first = lastParts sha256 right second :=
        slices_injective (free _ (by simp [hashedInputs]) _ (by simp [hashedInputs]) same)
      cases first with
      | none =>
        cases second with
        | none => simpa [lastParts] using parts
        | some number => cases congrArg length parts
      | some number =>
        cases second with
        | none => cases congrArg length parts
        | some other =>
          simp only [lastParts, Option.elim_some, cons.injEq, Subtype.mk.injEq, scopeBytes,
            contextBytes, Vector.toList_inj, and_true] at parts
          obtain ⟨scopes, numbers⟩ := parts
          have inner := slices_injective
            (free _ (mem_append_left _ (mem_cons_self ..)) _
              (mem_append_right _ (mem_cons_self ..)) scopes)
          rw [leBytes_token_injective _ _ numbers] at inner ⊢
          simpa using inner
    · rintro ⟨owners, hints, rfl⟩
      rw [lastParts, lastParts, cacheScope, cacheScope, owners, hints]
  · intro scope context key headers owns carries
    have hinted : hint headers = encode scope := by
      rw [hint, carries]
      rfl
    rw [cacheScope, owns, hinted, workerNamespace, Option.some_get]

/-- A request with an API key alone. -/
def keyOnly (key : UInt8) : HeaderMap :=
  ⟨none, some ⟨[key], Nat.one_lt_two_pow (by decide)⟩, none, none⟩

theorem namespaces_isolate_of_keys :
    namespaceOf weakHash (some (cacheScope weakHash (keyOnly 97) (some 1))) (some 1) ≠
      namespaceOf weakHash (some (cacheScope weakHash (keyOnly 98) (some 1))) (some 1) := by
  have free : CollisionFree weakHash (hashedInputs weakHash (keyOnly 97) (some 1) ++
      hashedInputs weakHash (keyOnly 98) (some 1)) := by
    unfold CollisionFree
    decide +kernel
  rw [Ne, (namespaces_isolate weakHash _ _ _ _ free).1]
  decide +kernel

end Joshua.Affinity

namespace Joshua.PrefixCache
open Joshua.Foundation List

variable {S : Type}

/-- What identifies an entry: the tenant and the tokens it covers. -/
def Entry.key (entry : Entry S) : Option Scope × List Token :=
  (entry.scope, entry.tokens)

/-- The books balance.  `events` bounds everything the event counters can
have counted so far. -/
structure Accounts (budget events : Nat) (cache : PrefixCache S) : Prop where
  budget_eq : cache.budget = budget
  used_eq : cache.used = (cache.entries.map Entry.bytes).sum
  used_le : cache.used ≤ budget
  keys_nodup : (cache.entries.map Entry.key).Nodup
  roots_le : cache.rootCount ≤ maxRoots
  tick_le : cache.tick ≤ events
  held_le : cache.stats.evicted + cache.stats.expired + cache.entries.length ≤ cache.stats.stored
  stored_le : cache.stats.stored ≤ events
  hits_le : cache.stats.hits ≤ events
  reused_le : cache.stats.tokensReused ≤ events

namespace Accounts

variable {budget events : Nat} {cache : PrefixCache S}

lemma new (budget : Nat) : Accounts budget 0 (PrefixCache.new budget : PrefixCache S) := by
  constructor <;> simp [PrefixCache.new, rootCount]

section
variable (accounts : Accounts budget events cache)
include accounts

lemma mono {later : Nat} (less : events ≤ later) : Accounts budget later cache :=
  { accounts with
    tick_le := accounts.tick_le.trans less
    stored_le := accounts.stored_le.trans less
    hits_le := accounts.hits_le.trans less
    reused_le := accounts.reused_le.trans less }

variable {rest : List (Entry S)} {entry : Entry S}

/-- Taking one entry out.  The caller may count it as evicted or expired, or
not at all. -/
lemma remove {evicted expired : Nat}
    (perm : (entry :: rest).Perm cache.entries)
    (counted : evicted + expired ≤ cache.stats.evicted + cache.stats.expired + 1) :
    Accounts budget events
      { cache with
        entries := rest
        used := cache.used - entry.bytes
        stats := { cache.stats with evicted := evicted, expired := expired } } := by
  have total : entry.bytes + (rest.map Entry.bytes).sum = cache.used := by
    rw [accounts.used_eq, ← (perm.map Entry.bytes).sum_nat]
    simp
  have keys := (perm.map Entry.key).nodup_iff.mpr accounts.keys_nodup
  have roots := perm.countP_eq fun entry : Entry S => entry.root
  have lengths := perm.length_eq
  have rootsLe := accounts.roots_le
  have heldLe := accounts.held_le
  have usedLe := accounts.used_le
  rw [countP_cons] at roots
  simp only [length_cons] at lengths
  unfold rootCount at rootsLe
  exact { accounts with
      used_eq := by simp only; omega
      used_le := by simp only; omega
      keys_nodup := (nodup_cons.mp keys).2
      roots_le := by simp only [rootCount]; omega
      held_le := by simp only; omega }

lemma bytes_le (perm : (entry :: rest).Perm cache.entries) : entry.bytes ≤ cache.used := by
  rw [accounts.used_eq, ← (perm.map Entry.bytes).sum_nat, map_cons, sum_cons]
  exact Nat.le_add_right _ _

/-- One more entry can be counted as evicted or expired. -/
lemma loss_lt
    (perm : (entry :: rest).Perm cache.entries) :
    cache.stats.evicted + cache.stats.expired < events := by
  have lengths := perm.length_eq
  have heldLe := accounts.held_le
  have storedLe := accounts.stored_le
  simp only [length_cons] at lengths
  omega

end

end Accounts

/-- Evictions, expiry and lookups of parked entries only take entries out. -/
def Fewer (cache after : PrefixCache S) : Prop :=
  after.entries.Subperm cache.entries

namespace Fewer

variable {cache middle after : PrefixCache S}

lemma refl (cache : PrefixCache S) : Fewer cache cache :=
  List.Subperm.refl _

lemma trans (first : Fewer cache middle) (second : Fewer middle after) : Fewer cache after :=
  List.Subperm.trans second first

lemma of_perm {entry : Entry S} (perm : (entry :: after.entries).Perm cache.entries) :
    Fewer cache after :=
  (sublist_cons_self entry after.entries).subperm.trans perm.subperm

lemma rootCount_le (fewer : Fewer cache after) : after.rootCount ≤ cache.rootCount :=
  List.Subperm.countP_le _ fewer

end Fewer

variable {budget events : Nat} {cache after : PrefixCache S} {bytes i : Nat} {root : Bool}

section Eviction

lemma evict_fewer {found : Bool} (evicted : evict root cache = .ok (found, after)) :
    Fewer cache after := by
  rcases evict_cases evicted with ⟨_, rfl, _⟩ | ⟨_, entry, _, _, perm, _⟩
  · exact .refl _
  · exact .of_perm perm

lemma capRoots_fewer {cache after : PrefixCache S}
    (capped : capRoots cache = .ok after) : Fewer cache after := by
  rw [capRoots] at capped
  split at capped
  next =>
    split at capped
    next => cases capped
    next => cases capped
    next middle step =>
      have := evict_length_lt step
      exact (evict_fewer step).trans (capRoots_fewer capped)
  next =>
    cases capped
    exact .refl _
termination_by cache.entries.length

lemma capRootsFor_fewer (capped : capRootsFor root cache = .ok after) : Fewer cache after := by
  cases root with
  | false =>
    cases capped
    exact .refl _
  | true => exact capRoots_fewer capped

/-- The byte-pressure loop ends where it is, or evicts, a root only when there
is no parked conversation. -/
lemma makeRoom_cases {bytes : Nat} {room : Bool} (made : makeRoom bytes cache = .ok (room, after)) :
    after = cache ∨ ∃ kind middle, evict kind cache = .ok (true, middle) ∧
      (kind = true → ∀ entry ∈ cache.entries, entry.root = true) ∧
      makeRoom bytes middle = .ok (room, after) := by
  rw [makeRoom] at made
  split at made
  next => cases made
  next =>
    cases made
    exact .inl rfl
  next last step =>
    cases made
    rcases pressureStep_cases step with
      ⟨never, _⟩ | ⟨_, ⟨_, never, _⟩ | ⟨_, ⟨_, never, _⟩ | ⟨same, _⟩⟩⟩
    all_goals first | cases never | cases same
    exact .inl rfl
  next kind middle step =>
    obtain ⟨evicted, allRoots⟩ := pressureStep_evicted step
    exact .inr ⟨kind, middle, evicted, allRoots, made⟩

lemma makeRoom_fewer {bytes : Nat} {room : Bool} {cache after : PrefixCache S}
    (made : makeRoom bytes cache = .ok (room, after)) : Fewer cache after := by
  obtain rfl | ⟨kind, middle, evicted, _, made⟩ := makeRoom_cases made
  · exact .refl _
  · have := evict_length_lt evicted
    exact (evict_fewer evicted).trans (makeRoom_fewer made)
termination_by cache.entries.length

/-- Eviction keeps the books; it reports `false` only when there was nothing of
the kind to evict. -/
lemma evict_spec (root : Bool) (accounts : Accounts budget events cache) :
    Checked (events < u64Limit)
      (fun result => Accounts budget events result.2 ∧ (result.1 = false → result.2 = cache ∧
          ∀ entry ∈ cache.entries, entry.root ≠ root))
      (evict root cache) := by
  cases chosen : minByKey? (fun candidate : Entry S × Nat => candidate.1.lastUsed)
        (cache.entries.zipIdx.filter fun candidate => candidate.1.root == root) with
  | none =>
    have unchanged : evict root cache = .ok (false, cache) := by simp only [evict, chosen]
    rcases evict_cases unchanged with ⟨_, _, noneFound⟩ | ⟨never, _⟩
    · rw [unchanged]
      exact ⟨accounts, fun _ => ⟨rfl, noneFound⟩⟩
    · cases never
  | some victim =>
    obtain ⟨entry, i⟩ := victim
    have perm := swapRemove_perm (getElem?_of_mem_zipIdx_filter (minByKey?_mem chosen))
    have loss := accounts.loss_lt perm
    simp only [evict, chosen]
    refine .bind (.u64Sub (accounts.bytes_le perm)) ?_
    rintro used rfl
    refine .bind (.u64Add fun few => by omega) ?_
    rintro evicted rfl
    exact ⟨accounts.remove perm (by omega), nofun⟩

/-- Memory pressure drops every parked conversation. -/
lemma shed_spec {cache : PrefixCache S} (accounts : Accounts budget events cache) :
    Checked (events < u64Limit)
      (fun after => Accounts budget events after ∧ ∀ entry ∈ after.entries, entry.root = true)
      (shed cache) := by
  have step := evict_spec false accounts
  rw [shed]
  split
  · rename_i aborted
    exact step.of_eq_error aborted
  · rename_i after stopped
    obtain ⟨balanced, finished⟩ := step.post_of_eq_ok stopped
    refine ⟨balanced, fun entry held => ?_⟩
    obtain ⟨rfl, noParked⟩ := finished rfl
    simpa using noParked entry held
  · rename_i after evicted
    have shorter := evict_length_lt evicted
    exact shed_spec (step.post_of_eq_ok evicted).1
termination_by cache.entries.length

/-- The root cap leaves room for one more root, and its loop ends. -/
lemma capRoots_spec {cache : PrefixCache S} (accounts : Accounts budget events cache) :
    Checked (events < u64Limit)
      (fun after => Accounts budget events after ∧ after.rootCount < maxRoots)
      (capRoots cache) := by
  have step := evict_spec true accounts
  rw [capRoots]
  split
  · rename_i full
    split
    · rename_i aborted
      exact step.of_eq_error aborted
    · -- a counted root is always found
      rename_i after stopped
      obtain ⟨_, noRoots⟩ := (step.post_of_eq_ok stopped).2 rfl
      have zero : cache.rootCount = 0 := List.countP_eq_zero.mpr noRoots
      rw [zero] at full
      exact absurd full (by decide)
    · rename_i after evicted
      have shorter := evict_length_lt evicted
      exact capRoots_spec (step.post_of_eq_ok evicted).1
  · exact ⟨accounts, by omega⟩
termination_by cache.entries.length

/-- A round of byte pressure stops with enough room or evicts; it never finds
the cache empty when the new bytes fit the budget at all. -/
lemma pressureStep_spec (accounts : Accounts budget events cache) (small : budget < 2 ^ 63)
    (fits : bytes ≤ budget) : Checked (events < u64Limit)
      (fun
        | .enough => cache.used + bytes ≤ budget
        | .evicted _ after => Accounts budget events after
        | .exhausted _ => False)
      (pressureStep bytes cache) := by
  have usedLe := accounts.used_le
  have budgetEq := accounts.budget_eq
  refine .bind (.u64Add fun _ => by unfold u64Limit; omega) ?_
  rintro total rfl
  split
  · rename_i isOver
    refine .bind (evict_spec false accounts) ?_
    rintro ⟨parked, unparked⟩ ⟨balanced, noParked⟩
    cases parked with
    | true => exact balanced
    | false =>
      obtain ⟨rfl, noParked⟩ := noParked rfl
      refine .bind (evict_spec true accounts) ?_
      rintro ⟨rooted, unrooted⟩ ⟨rootBalanced, noRoots⟩
      cases rooted with
      | true => exact rootBalanced
      | false =>
        -- neither kind is left, so nothing is counted as used
        have empty : unparked.entries = [] := by
          rw [eq_nil_iff_forall_not_mem]
          intro entry held
          have notParked := noParked entry held
          have notRoot := (noRoots rfl).2 entry held
          cases kind : entry.root <;> simp_all
        have unused := accounts.used_eq
        rw [empty, map_nil, sum_nil] at unused
        exact absurd isOver (by omega)
  · rename_i room
    exact (Nat.le_of_not_lt room).trans_eq budgetEq

/-- The byte-pressure loop always makes room for bytes that fit the budget. -/
lemma makeRoom_spec {cache : PrefixCache S} {bytes : Nat}
    (accounts : Accounts budget events cache) (small : budget < 2 ^ 63) (fits : bytes ≤ budget) :
    Checked (events < u64Limit)
      (fun result => result.1 = true ∧ Accounts budget events result.2 ∧
        result.2.used + bytes ≤ budget)
      (makeRoom bytes cache) := by
  have step := pressureStep_spec accounts small fits
  rw [makeRoom]
  split
  · rename_i aborted
    exact step.of_eq_error aborted
  · rename_i enough
    exact ⟨rfl, accounts, step.post_of_eq_ok enough⟩
  · rename_i after exhausted
    exact (step.post_of_eq_ok exhausted).elim
  · rename_i root after evicted
    have shorter := evict_length_lt (pressureStep_evicted evicted).1
    have balanced : Accounts budget events after := step.post_of_eq_ok evicted
    exact makeRoom_spec balanced small fits
termination_by cache.entries.length

end Eviction

section Expiry

/-- Expiry over the entries still to visit.  The invariant of the loop is
that the entries kept and those still to visit balance the books. -/
private lemma expire_rest_spec (now : Instant) (rest : List (Entry S)) (kept : PrefixCache S)
    (accounts : Accounts budget events { kept with entries := kept.entries ++ rest }) :
    Checked (events < u64Limit) (Accounts budget events) (rest.foldlM (expireEntry now) kept) := by
  induction rest generalizing kept with
  | nil =>
    show Accounts budget events kept
    simpa using accounts
  | cons entry rest ih =>
    have perm : (entry :: (kept.entries ++ rest)).Perm
        (kept.entries ++ entry :: rest) := perm_middle.symm
    rw [foldlM_cons]
    refine Checked.bind (m := fun next =>
      Accounts budget events { next with entries := next.entries ++ rest }) ?_
      ih
    unfold expireEntry
    split
    · have loss := accounts.loss_lt perm
      simp only at loss
      refine .bind (.u64Sub (accounts.bytes_le perm)) ?_
      rintro used rfl
      refine .bind (.u64Add fun few => by omega) ?_
      rintro expired rfl
      exact accounts.remove perm le_rfl
    · show Accounts budget events _
      simpa using accounts

lemma expire_spec (now : Instant) (accounts : Accounts budget events cache) :
    Checked (events < u64Limit) (Accounts budget events) (expire now cache) :=
  expire_rest_spec now cache.entries { cache with entries := [] } accounts

end Expiry

variable {scope : Option Scope}

section Insertion
variable {tokens : List Token}

lemma Entry.sameKey_iff {entry : Entry S} :
    entry.sameKey scope tokens = true ↔ entry.key = (scope, tokens) := by
  simp [Entry.sameKey, Entry.key]

lemma key_ne_of_missing
    (missing : cache.entries.zipIdx.find? (fun candidate => candidate.1.sameKey scope tokens) =
      none) : ∀ entry ∈ cache.entries, entry.key ≠ (scope, tokens) := by
  intro entry held same
  obtain ⟨i, pos⟩ := List.getElem?_of_mem held
  exact List.find?_eq_none.mp missing (entry, i) (mem_zipIdx_iff_getElem?.mpr pos)
    (Entry.sameKey_iff.mpr same)

lemma nextTick_spec (accounts : Accounts budget events cache) : Checked (events + 1 < u64Limit)
      (fun result => result.1 = cache.tick + 1 ∧ result.2 = { cache with tick := cache.tick + 1 } ∧
        Accounts budget (events + 1) result.2)
      (nextTick cache) := by
  have tickLe := accounts.tick_le
  refine .bind (.u64Add fun _ => by omega) ?_
  rintro tick rfl
  exact ⟨rfl, rfl, { accounts.mono (Nat.le_succ events) with
        tick_le := Nat.succ_le_succ tickLe }⟩

/-- Appending an entry of a new key for which there is room. -/
lemma store_spec {root : Bool} (now : Instant) (snap : S) (accounts : Accounts budget events cache)
    (small : budget < 2 ^ 63) (room : cache.used + bytes ≤ budget)
    (fresh : ∀ entry ∈ cache.entries, entry.key ≠ (scope, tokens))
    (rootRoom : root = true → cache.rootCount < maxRoots) :
    Checked (events + 1 < u64Limit) (Accounts budget (events + 1))
      (store now tokens snap bytes root scope cache) := by
  have tickLe := accounts.tick_le
  have storedLe := accounts.stored_le
  have heldLe := accounts.held_le
  unfold store
  refine .bind (nextTick_spec accounts) ?_
  rintro ⟨tick, ticked⟩ ⟨rfl, rfl, balanced⟩
  refine .bind (.u64Add fun _ => by unfold u64Limit; simp only; omega) ?_
  rintro used rfl
  refine .bind (.u64Add fun _ => by simp only; omega) ?_
  rintro stored rfl
  exact { balanced with
      used_eq := by simp [accounts.used_eq]
      used_le := room
      keys_nodup := by
        rw [map_append]
        refine nodup_append_comm.mp (nodup_cons.mpr ⟨fun mem => ?_, accounts.keys_nodup⟩)
        obtain ⟨entry, held, same⟩ := mem_map.mp mem
        exact fresh entry held same
      roots_le := by
        have rootsLe := accounts.roots_le
        unfold rootCount at rootsLe rootRoom ⊢
        rw [countP_append, countP_singleton]
        cases root with
        | false => simpa using rootsLe
        | true => simpa [Nat.succ_le_iff] using rootRoom rfl
      held_le := by simp only [length_append, length_singleton]; omega
      stored_le := by simp only; omega }

lemma capRootsFor_spec (root : Bool) (accounts : Accounts budget events cache) :
    Checked (events < u64Limit)
      (fun after => Accounts budget events after ∧ (root = true → after.rootCount < maxRoots))
      (capRootsFor root cache) := by
  cases root with
  | false => exact ⟨accounts, by simp⟩
  | true =>
    exact (capRoots_spec accounts).imp fun _ facts => ⟨facts.1, fun _ => facts.2⟩

/-- An insertion under a new key always ends with the snapshot stored. -/
lemma insertFresh_spec {live : PrefixCache S} (now : Instant) (snap : S) (root : Bool)
    (accounts : Accounts budget events live) (small : budget < 2 ^ 63) (fits : bytes ≤ budget)
    (fresh : ∀ entry ∈ live.entries, entry.key ≠ (scope, tokens)) : Checked (events + 1 < u64Limit)
      (fun result => Accounts budget (events + 1) result.2 ∧ result.1 = true)
      (insertFresh now tokens snap bytes root scope live) := by
  have sooner : events + 1 < u64Limit → events < u64Limit := by omega
  refine .bind ((capRootsFor_spec root accounts).safe_imp sooner).with_eq ?_
  rintro capped ⟨cap, balanced, roomCap⟩
  refine .bind ((makeRoom_spec balanced small fits).safe_imp sooner).with_eq ?_
  rintro ⟨_, spaced⟩ ⟨made, rfl, balanced, room⟩
  have fewer := makeRoom_fewer made
  have stored := store_spec now snap balanced small room
    (fun entry held => fresh entry (((capRootsFor_fewer cap).trans fewer).subset held))
    (fun isRoot => fewer.rootCount_le.trans_lt (roomCap isRoot))
  exact .bind stored fun _ final => ⟨final, rfl⟩

/-- An insertion keeps the books balanced and stores exactly the snapshots
that could ever fit. -/
lemma insertScoped_spec [Snapshot S] {cache : PrefixCache S} (clock : Nat → Instant)
    (tokens : List Token) (snap : S) (root : Bool) (scope : Option Scope)
    (accounts : Accounts budget events cache) (small : budget < 2 ^ 63) :
    Checked (events + 1 < u64Limit)
      (fun result => Accounts budget (events + 1) result.2 ∧ (result.1 = true ↔
          tokens ≠ [] ∧ 0 < (Snapshot.bytes snap).toNat ∧ (Snapshot.bytes snap).toNat ≤ budget))
      (insertScoped clock tokens snap root scope cache) := by
  have sooner : events + 1 < u64Limit → events < u64Limit := by omega
  have expiry := (expire_spec (clock 0) accounts).safe_imp sooner
  rw [insertScoped]
  split
  · rename_i aborted
    exact expiry.of_eq_error aborted
  · rename_i live expired
    have balanced := expiry.post_of_eq_ok expired
    have refusedIff : (tokens.isEmpty || !live.fits (Snapshot.bytes snap).toNat) = true ↔
          ¬ (tokens ≠ [] ∧ 0 < (Snapshot.bytes snap).toNat ∧
            (Snapshot.bytes snap).toNat ≤ budget) := by
      rw [← Bool.not_eq_false, not_iff_not]
      simp [fits, balanced.budget_eq]
    dsimp only
    by_cases accepted : (tokens.isEmpty || !live.fits (Snapshot.bytes snap).toNat) = true
    · rw [if_pos accepted]
      refine ⟨balanced.mono (Nat.le_succ _), ?_⟩
      simpa using refusedIff.mp accepted
    · rw [if_neg accepted]
      have sizes := not_not.mp (mt refusedIff.mpr accepted)
      split
      · -- the key is held: take its entry out and start again
        rename_i old i found
        obtain ⟨pos, shorter⟩ := find_sameKey expired found
        have perm := swapRemove_perm pos
        rw [u64Sub_of_le (balanced.bytes_le perm)]
        exact insertScoped_spec (fun reading => clock (reading + 1)) tokens
            snap (root || old.root) scope
            (balanced.remove perm (Nat.le_succ _)) small
      · rename_i missing
        have inserted := insertFresh_spec (clock 1) snap root balanced small sizes.2.2
          (key_ne_of_missing missing)
        exact inserted.imp fun _ facts => ⟨facts.1, iff_of_true facts.2 sizes⟩
termination_by cache.entries.length

end Insertion

section Lookup
variable {entry : Entry S} {prompt : List Token}

/-- A lookup finds a held entry, shorter than the prompt. -/
lemma best_found {clock : Nat → Instant} (found : best clock prompt scope cache = some (entry, i)) :
    cache.entries[i]? = some entry ∧ entry.matchesPrompt (clock i) prompt scope = true := by
  have mem := maxByKey?_mem found
  exact ⟨getElem?_of_mem_zipIdx_filter mem, (mem_filter.mp mem).2⟩

/-- The entry a lookup chooses is the longest of the live entries it could
resume from. -/
lemma best_longest {clock : Nat → Instant} {other : Entry S} {pos : Nat}
    (found : best clock prompt scope cache = some (entry, i))
    (held : cache.entries[pos]? = some other)
    (matched : other.matchesPrompt (clock pos) prompt scope = true) :
    other.tokens.length ≤ entry.tokens.length := by
  have mem : (other, pos) ∈ cache.entries.zipIdx.filter fun candidate =>
        candidate.1.matchesPrompt (clock candidate.2) prompt scope :=
    mem_filter.mpr ⟨mem_zipIdx_iff_getElem?.mpr held, matched⟩
  have order := maxByKey?_ge found mem
  rcases Prod.Lex.le_iff.mp order with shorter | ⟨same, _⟩
  · exact le_of_lt shorter
  · exact le_of_eq same

lemma Entry.matchesPrompt_length_lt {now : Instant}
    (matched : entry.matchesPrompt now prompt scope = true) :
    entry.tokens.length < prompt.length := by
  simp only [Entry.matchesPrompt, Bool.and_eq_true, decide_eq_true_eq] at matched
  exact matched.1.2

/-- Overwriting an entry without changing what the books record of it. -/
lemma Accounts.touch (accounts : Accounts budget events cache) (used : Entry S)
    (pos : cache.entries[i]? = some entry) (sameBytes : used.bytes = entry.bytes)
    (sameKey : used.key = entry.key) (sameRoot : used.root = entry.root) :
    Accounts budget events { cache with entries := cache.entries.set i used } :=
  { accounts with
    used_eq := by
      simp only [map_set_of_eq pos sameBytes]
      exact accounts.used_eq
    keys_nodup := by
      simp only [map_set_of_eq pos sameKey]
      exact accounts.keys_nodup
    roots_le := by
      have unchanged := accounts.roots_le
      have roots := map_set_of_eq (f := Entry.root) pos sameRoot
      have counts := congrArg (List.countP id) roots
      simp only [countP_map] at counts
      simpa [rootCount, Function.comp_def] using counts.trans_le unchanged
    held_le := by simpa using accounts.held_le }

/-- Counting a hit on books with room for `len` more reused tokens. -/
lemma recordHit_spec {later : Nat} (len : Nat) (accounts : Accounts budget later cache)
    (hits : cache.stats.hits + 1 ≤ later) (reused : cache.stats.tokensReused + len ≤ later) :
    Checked (later < u64Limit) (Accounts budget later) (recordHit len cache) := by
  refine .bind (.u64Add fun _ => by omega) ?_
  rintro hit rfl
  refine .bind (.u64Add fun _ => by omega) ?_
  rintro total rfl
  exact { accounts with hits_le := hits, reused_le := reused }

/-- A lookup keeps the books balanced, also when copying a root's state
fails. -/
lemma takeScoped_spec {E : Type} (clock : Nat → Instant) (prompt : List Token)
    (scope : Option Scope) (duplicate : S → Except E S) (accounts : Accounts budget events cache) :
    Checked (events + (1 + prompt.length) < u64Limit)
      (fun result => Accounts budget (events + (1 + prompt.length)) result.2)
      (takeScoped clock prompt scope duplicate cache) := by
  unfold takeScoped
  split
  · exact accounts.mono (Nat.le_add_right _ _)
  · rename_i entry i found
    obtain ⟨pos, matched⟩ := best_found found
    have shorter := Entry.matchesPrompt_length_lt matched
    have hitsLe := accounts.hits_le
    have reusedLe := accounts.reused_le
    refine .bind ((nextTick_spec accounts).safe_imp (by omega)) ?_
    rintro ⟨tick, ticked⟩ ⟨rfl, rfl, balanced⟩
    have later := balanced.mono (show events + 1 ≤ events + (1 + prompt.length) by omega)
    dsimp only at later ⊢
    by_cases kind : entry.root = true
    · rw [if_pos kind]
      have touched := later.touch { entry with
          lastUsed := cache.tick + 1
          expires := scope.map fun _ => clock cache.entries.length + ttl }
        pos rfl rfl rfl
      cases copied : duplicate entry.snap with
      | error failure => exact touched
      | ok snap =>
        exact .bind
            (recordHit_spec entry.tokens.length touched (by simp only; omega) (by simp only; omega))
            fun _ final => final
    · rw [if_neg kind]
      have perm := swapRemove_perm pos
      refine .bind (.u64Sub (accounts.bytes_le perm)) ?_
      rintro used rfl
      exact .bind (recordHit_spec entry.tokens.length (later.remove perm (Nat.le_succ _))
            (by simp only; omega) (by simp only; omega))
          fun _ final => final

open PrefixKey in
/-- All keys of an entry that matches a prompt are shared with the prompt. -/
lemma Entry.chain_of_matchesPrompt {now : Instant}
    (matched : entry.matchesPrompt now prompt scope = true) (sha256 : Bytes → Digest)
    (salt : Digest) : chain sha256 salt entry.tokens <+: chain sha256 salt prompt ∧
      sharedChunks (chain sha256 salt entry.tokens) (chain sha256 salt prompt) =
        entry.tokens.length / hashChunk := by
  simp only [Entry.matchesPrompt, Bool.and_eq_true, isPrefixOf_iff_prefix] at matched
  obtain ⟨rest, rfl⟩ := matched.2
  have shared : chain sha256 salt entry.tokens <+: chain sha256 salt (entry.tokens ++ rest) :=
    chain_append salt _ _
  refine ⟨shared, ?_⟩
  obtain ⟨more, same⟩ := shared
  have counted := commonLength_append_left (chain sha256 salt entry.tokens) [] more
  rw [append_nil] at counted
  rw [sharedChunks, commonLength_eq_takeWhile, ← same, counted, length_chain]
  rfl

open PrefixKey in
/-- Whatever the hash function, the keys never miss a hit: an entry that
matches a prompt shares the keys of all its complete chunks with the prompt,
and a lookup resumes from no less than its length. What it resumes from are no
more chunks than are usable, and they are those of an entry all of whose keys
are the first of the prompt. -/
theorem keys_never_miss (sha256 : Bytes → Digest) (salt : Digest) (clock : Nat → Instant) :
    let length := bestLenScoped clock prompt scope cache
    length / hashChunk ≤ usableChunks prompt.length ∧
    (∀ (pos : Nat) (entry : Entry S), cache.entries[pos]? = some entry →
      entry.matchesPrompt (clock pos) prompt scope = true → entry.tokens.length ≤ length ∧
      sharedChunks (chain sha256 salt entry.tokens) (chain sha256 salt prompt) =
        entry.tokens.length / hashChunk) ∧
    (0 < length → ∃ entry ∈ cache.entries,
      entry.scope = scope ∧ entry.tokens.length = length ∧
      (chain sha256 salt entry.tokens).length = length / hashChunk ∧
      chain sha256 salt entry.tokens <+: chain sha256 salt prompt) := by
  rw [bestLenScoped]
  cases found : best clock prompt scope cache with
  | none =>
    refine ⟨by simp, fun pos entry held matched => ?_, by simp⟩
    have unmatched := maxByKey?_eq_none.mp found
    have mem : (entry, pos) ∈ cache.entries.zipIdx.filter fun candidate =>
        candidate.1.matchesPrompt (clock candidate.2) prompt scope :=
      mem_filter.mpr ⟨mem_zipIdx_iff_getElem?.mpr held, matched⟩
    rw [unmatched] at mem
    cases mem
  | some held =>
    obtain ⟨inside, matched⟩ := best_found found
    have shorter := Entry.matchesPrompt_length_lt matched
    refine ⟨Nat.div_le_div_right (Nat.le_sub_one_of_lt shorter),
      fun pos entry other same => ⟨best_longest found other same,
        (Entry.chain_of_matchesPrompt same sha256 salt).2⟩,
      fun _ => ⟨held.1, mem_of_getElem? inside, ?_, rfl, length_chain salt _,
        (Entry.chain_of_matchesPrompt matched sha256 salt).1⟩⟩
    simp only [Entry.matchesPrompt, Bool.and_eq_true, beq_iff_eq] at matched
    exact matched.1.1.1

end Lookup

end Joshua.PrefixCache
