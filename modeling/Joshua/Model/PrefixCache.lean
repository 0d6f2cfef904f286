/-
Module: Joshua.Model.PrefixCache
Purpose: The engine's prefix cache (`prefix_cache.rs`): parked conversation
  states under a byte budget, keyed by scope and tokens; content keys of
  prompt prefixes (`prefix_key.rs`); the namespaces of requests
  (`affinity.rs`, with `presented_api_key` of `server.rs`).
Trusted boundary: the monotonic clock is an argument of every operation that
  reads it; no relation between two readings is assumed; SHA-256 is any
  function from byte strings to digests
-/
import Joshua.Foundation.Bytes
import Joshua.Foundation.Collections
import Joshua.Foundation.HashChain
import Joshua.Foundation.Machine
import Joshua.Model.Basic
import Mathlib.Data.Prod.Lex

namespace Joshua
open Joshua.Foundation List

section

/-!
The cache holds two kinds of entries.  A *root* is the state at the end of a
prompt head that every new chat of a client repeats; a lookup copies it and
leaves it in place.  Any other entry is a *parked* conversation, which a
lookup takes out.

Byte and event counters are `u64`.  Every addition and subtraction on them is
the checked one, so an operation returns a fault exactly where a checked build
of the source would panic.

Several operations read the clock more than once.  They take the successive
readings as a function of the reading's number.
-/

/-- What the cache needs to know about a snapshot. -/
class Snapshot (S : Type) where
  bytes : S → UInt64

variable {S : Type}

namespace PrefixCache

/-- `MAX_ROOTS`: root entries kept at most. -/
def maxRoots : Nat := 4

structure Entry (S : Type) where
  scope : Option Scope
  expires : Option Instant
  tokens : List Token
  snap : S
  bytes : Nat
  lastUsed : Nat
  root : Bool

/-- What a lookup found. -/
structure Hit (S : Type) where
  snap : S
  len : Nat
  root : Bool

/-- The counters kept between calls; `entries`, `bytes` and `budget` of the
reported statistics are read off the cache. -/
structure Stats where
  expired : Nat := 0
  hits : Nat := 0
  tokensReused : Nat := 0
  stored : Nat := 0
  evicted : Nat := 0
deriving Repr, DecidableEq

end PrefixCache

/-- A byte-budgeted set of parked states, keyed by the tokens they cover. -/
structure PrefixCache (S : Type) where
  entries : List (PrefixCache.Entry S)
  budget : Nat
  used : Nat
  tick : Nat
  stats : PrefixCache.Stats

namespace PrefixCache

namespace Entry

section
variable (entry : Entry S) (now : Instant)

/-- `expires.is_none_or(|expires| expires > now)`. -/
def liveAt : Bool :=
  entry.expires.all fun expires => decide (now < expires)

/-- `expires.is_some_and(|expires| expires <= now)`. -/
def expiredAt : Bool :=
  entry.expires.any fun expires => decide (expires ≤ now)

/-- The filter of a lookup: same scope, still live, a strict prefix of the
prompt. -/
def matchesPrompt (prompt : List Token) (scope : Option Scope) : Bool :=
  entry.scope == scope && entry.liveAt now &&
    decide (entry.tokens.length < prompt.length) &&
    entry.tokens.isPrefixOf prompt

end

end Entry

/-- An empty cache holding at most `budget` bytes. -/
def new (budget : Nat) : PrefixCache S :=
  { entries := [], budget := budget, used := 0, tick := 0, stats := {} }

/-- Whether the cache stores anything at all. -/
def enabled (cache : PrefixCache S) : Bool :=
  decide (0 < cache.budget)

/-- The next value of the use counter. -/
def nextTick (cache : PrefixCache S) : Except Fault (Nat × PrefixCache S) := do
  let tick ← u64Add cache.tick 1
  pure (tick, { cache with tick := tick })

/-- Index and entry of the longest live strict prefix of `prompt`, the most
recently used one among equally long ones.  Entry `i` is tested against
reading `i` of the clock. -/
def best (clock : Nat → Instant) (prompt : List Token) (scope : Option Scope)
    (cache : PrefixCache S) : Option (Entry S × Nat) :=
  maxByKey?
    (fun candidate : Entry S × Nat => toLex (candidate.1.tokens.length, candidate.1.lastUsed))
    (cache.entries.zipIdx.filter fun candidate =>
      candidate.1.matchesPrompt (clock candidate.2) prompt scope)

/-- Length of the longest entry that is a strict prefix of `prompt`. -/
def bestLenScoped (clock : Nat → Instant) (prompt : List Token)
    (scope : Option Scope) (cache : PrefixCache S) : Nat :=
  (best clock prompt scope cache).elim 0 fun found => found.1.tokens.length

/-- Count a hit that spared `len` prompt tokens. -/
def recordHit (len : Nat) (cache : PrefixCache S) : Except Fault (PrefixCache S) := do
  let hits ← u64Add cache.stats.hits 1
  let tokensReused ← u64Add cache.stats.tokensReused len
  pure
    { cache with
      stats := { cache.stats with hits := hits, tokensReused := tokensReused } }

/-- Take the longest entry that is a strict prefix of `prompt`.  A root stays
and the caller gets a copy from `duplicate`, whose failure is returned after
the use of the root has been recorded; a parked conversation leaves. -/
def takeScoped {E : Type} (clock : Nat → Instant) (prompt : List Token) (scope : Option Scope)
    (duplicate : S → Except E S) (cache : PrefixCache S) :
    Except Fault (Except E (Option (Hit S)) × PrefixCache S) :=
  match best clock prompt scope cache with
  | none => .ok (.ok none, cache)
  | some (entry, index) => do
      let (now, ticked) ← nextTick cache
      if entry.root then
        let used : Entry S :=
          { entry with
            lastUsed := now
            expires := scope.map fun _ => clock ticked.entries.length + ttl }
        let touched := { ticked with entries := ticked.entries.set index used }
        match duplicate used.snap with
        | .error failure => pure (.error failure, touched)
        | .ok snap => do
            let counted ← recordHit used.tokens.length touched
            pure (.ok (some { snap := snap, len := used.tokens.length, root := true }), counted)
      else do
        let bytesLeft ← u64Sub ticked.used entry.bytes
        let removed :=
          { ticked with
            entries := swapRemove ticked.entries index
            used := bytesLeft }
        let counted ← recordHit entry.tokens.length removed
        pure
          (.ok (some
            { snap := entry.snap
              len := entry.tokens.length
              root := false }),
            counted)

/-- `take`: a lookup outside every scope. -/
def take {E : Type} (clock : Nat → Instant) (prompt : List Token) (duplicate : S → Except E S)
    (cache : PrefixCache S) : Except Fault (Except E (Option (Hit S)) × PrefixCache S) :=
  takeScoped clock prompt none duplicate cache

/-- Whether a live root entry covers exactly `tokens`. -/
def hasRootScoped (clock : Nat → Instant) (tokens : List Token)
    (scope : Option Scope) (cache : PrefixCache S) : Bool :=
  cache.entries.zipIdx.any fun candidate =>
    candidate.1.scope == scope && candidate.1.root &&
      candidate.1.tokens == tokens &&
      candidate.1.liveAt (clock candidate.2)

/-- Whether an entry of `bytes` could be stored at all. -/
def fits (bytes : Nat) (cache : PrefixCache S) : Bool :=
  decide (0 < bytes) && decide (bytes ≤ cache.budget)

/-- One step of `retain`: `kept` holds the entries kept so far. -/
def expireEntry (now : Instant) (kept : PrefixCache S) (entry : Entry S) :
    Except Fault (PrefixCache S) :=
  if entry.expiredAt now then do
    let used ← u64Sub kept.used entry.bytes
    let expired ← u64Add kept.stats.expired 1
    pure
      { kept with
        used := used
        stats := { kept.stats with expired := expired } }
  else
    .ok { kept with entries := kept.entries ++ [entry] }

/-- Drop every entry whose lease has run out at `now`. -/
def expire (now : Instant) (cache : PrefixCache S) : Except Fault (PrefixCache S) :=
  cache.entries.foldlM (expireEntry now) { cache with entries := [] }

/-- Drop the least recently used entry of the given kind; `false` when there
is none. -/
def evict (root : Bool) (cache : PrefixCache S) : Except Fault (Bool × PrefixCache S) :=
  match
    minByKey? (fun candidate : Entry S × Nat => candidate.1.lastUsed)
      (cache.entries.zipIdx.filter fun candidate => candidate.1.root == root) with
  | none => .ok (false, cache)
  | some (entry, index) => do
      let used ← u64Sub cache.used entry.bytes
      let evicted ← u64Add cache.stats.evicted 1
      pure
        (true, { cache with
            entries := swapRemove cache.entries index
            used := used
            stats := { cache.stats with evicted := evicted } })

/-- An entry found with its position is the entry at that position. -/
lemma getElem?_of_mem_zipIdx_filter {entries : List (Entry S)} {keep : Entry S × Nat → Bool}
    {entry : Entry S} {index : Nat} (member : (entry, index) ∈ entries.zipIdx.filter keep) :
    entries[index]? = some entry :=
  mem_zipIdx_iff_getElem?.mp (mem_of_mem_filter member)

variable {cache after : PrefixCache S} {root : Bool}

/-- Everything an eviction can do: find no entry of the kind, or take one
entry of the kind out and account for it. -/
lemma evict_cases {found : Bool} (evicted : evict root cache = .ok (found, after)) :
    (found = false ∧ after = cache ∧ ∀ entry ∈ cache.entries, entry.root ≠ root) ∨
    (found = true ∧ ∃ entry, entry.root = root ∧ entry.bytes ≤ cache.used ∧
        (entry :: after.entries).Perm cache.entries ∧
        cache.stats.evicted + 1 < u64Limit ∧
        after =
          { cache with
            entries := after.entries
            used := cache.used - entry.bytes
            stats := { cache.stats with evicted := cache.stats.evicted + 1 } }) := by
  unfold evict at evicted
  split at evicted
  · rename_i missing
    left
    simp only [Except.ok.injEq, Prod.mk.injEq] at evicted
    refine ⟨evicted.1.symm, evicted.2.symm, ?_⟩
    intro entry member sameKind
    obtain ⟨index, position⟩ := List.getElem?_of_mem member
    have candidate :
        (entry, index) ∈ cache.entries.zipIdx.filter fun candidate => candidate.1.root == root := by
      rw [mem_filter]
      exact ⟨mem_zipIdx_iff_getElem?.mpr position, by simp [sameKind]⟩
    rw [minByKey?_eq_none.mp missing] at candidate
    simp at candidate
  · rename_i entry index chosen
    right
    have member := minByKey?_mem chosen
    have kind : entry.root = root := by simpa using (mem_filter.mp member).2
    simp only [bind, bind_eq_ok, u64Sub_eq_ok, u64Add_eq_ok, pure, Except.pure, Except.ok.injEq,
      Prod.mk.injEq] at evicted
    obtain ⟨used, ⟨enough, usedEq⟩, count, ⟨small, countEq⟩, ok, result⟩ := evicted
    subst usedEq countEq result
    exact
      ⟨ok.symm, entry, kind, enough,
        swapRemove_perm (getElem?_of_mem_zipIdx_filter member), small, rfl⟩

lemma evict_length_lt (evicted : evict root cache = .ok (true, after)) :
    after.entries.length < cache.entries.length := by
  rcases evict_cases evicted with ⟨impossible, _⟩ | ⟨_, entry, _, _, perm, _⟩
  · cases impossible
  · have lengths := perm.length_eq
    simp only [length_cons] at lengths
    omega

/-- `while self.evict(false) {}`: drop every parked conversation. -/
def shed (cache : PrefixCache S) : Except Fault (PrefixCache S) :=
  match step : evict false cache with
  | .error fault => .error fault
  | .ok (false, after) => .ok after
  | .ok (true, after) =>
    have := evict_length_lt step
    shed after
termination_by cache.entries.length

/-- Drop everything. -/
def clear (cache : PrefixCache S) : PrefixCache S :=
  { cache with entries := [], used := 0 }

/-- Number of root entries. -/
def rootCount (cache : PrefixCache S) : Nat :=
  cache.entries.countP fun entry => entry.root

/-- The first loop of an insertion: evict roots until one more fits under
`maxRoots`.  The source ignores the eviction's result; the middle branch is
the one where it would spin, which needs a counted root that is not found. -/
def capRoots (cache : PrefixCache S) : Except Fault (PrefixCache S) :=
  if maxRoots ≤ cache.rootCount then
    match step : evict true cache with
    | .error fault => .error fault
    | .ok (false, _) => .error .spin
    | .ok (true, after) =>
      have := evict_length_lt step
      capRoots after
  else
    .ok cache
termination_by cache.entries.length

/-- The root cap applies to the insertion of a root only. -/
def capRootsFor (root : Bool) (cache : PrefixCache S) : Except Fault (PrefixCache S) :=
  if root then capRoots cache else .ok cache

/-- What one round of the byte-pressure loop does. -/
inductive Pressure (S : Type)
  | enough
  | evicted (root : Bool) (after : PrefixCache S)
  | exhausted (after : PrefixCache S)

/-- One round of `while self.used + bytes > self.budget`: evict a parked
conversation, or a root when there is none. -/
def pressureStep (bytes : Nat) (cache : PrefixCache S) : Except Fault (Pressure S) := do
  let total ← u64Add cache.used bytes
  if cache.budget < total then
    let (parked, unparked) ← evict false cache
    if parked then
      pure (.evicted false unparked)
    else
      let (rooted, unrooted) ← evict true unparked
      pure (if rooted then .evicted true unrooted else .exhausted unrooted)
  else
    pure .enough

/-- Everything a round of byte pressure can do. -/
lemma pressureStep_cases {bytes : Nat} {result : Pressure S}
    (step : pressureStep bytes cache = .ok result) :
    (result = .enough ∧ cache.used + bytes ≤ cache.budget) ∨
    (cache.budget < cache.used + bytes ∧
      ((∃ after, result = .evicted false after ∧ evict false cache = .ok (true, after)) ∨
        ((∀ entry ∈ cache.entries, entry.root = true) ∧
          ((∃ after, result = .evicted true after ∧ evict true cache = .ok (true, after)) ∨
            (result = .exhausted cache ∧ cache.entries = []))))) := by
  simp only [pressureStep, bind, bind_eq_ok, u64Add_eq_ok] at step
  obtain ⟨total, ⟨_, rfl⟩, step⟩ := step
  split at step
  · rename_i isOver
    right
    refine ⟨isOver, ?_⟩
    simp only [bind_eq_ok] at step
    obtain ⟨⟨parked, unparked⟩, evictedParked, step⟩ := step
    cases parked with
    | true =>
      left
      simp only [if_true, pure, Except.pure, Except.ok.injEq] at step
      exact ⟨unparked, step.symm, evictedParked⟩
    | false =>
      right
      rcases evict_cases evictedParked with
        ⟨_, rfl, noParked⟩ | ⟨impossible, _⟩
      · have allRoots : ∀ entry ∈ unparked.entries, entry.root = true := by
          intro entry member
          simpa using noParked entry member
        refine ⟨allRoots, ?_⟩
        simp only [Bool.false_eq_true, if_false, bind_eq_ok] at step
        obtain ⟨⟨rooted, unrooted⟩, evictedRoot, step⟩ := step
        simp only [pure, Except.pure, Except.ok.injEq] at step
        cases rooted with
        | true => exact .inl ⟨unrooted, step.symm, evictedRoot⟩
        | false =>
          right
          rcases evict_cases evictedRoot with
            ⟨_, rfl, noRoots⟩ | ⟨impossible, _⟩
          · refine ⟨step.symm, eq_nil_iff_forall_not_mem.mpr ?_⟩
            intro entry member
            exact noRoots entry member (allRoots entry member)
          · cases impossible
      · cases impossible
  · rename_i room
    left
    simp only [pure, Except.pure, Except.ok.injEq] at step
    exact ⟨step.symm, Nat.le_of_not_lt room⟩

/-- What was evicted, a root only when there is no parked conversation. -/
lemma pressureStep_evicted {bytes : Nat}
    (step : pressureStep bytes cache = .ok (.evicted root after)) :
    evict root cache = .ok (true, after) ∧
      (root = true → ∀ entry ∈ cache.entries, entry.root = true) := by
  rcases pressureStep_cases step with
    ⟨impossible, _⟩ |
      ⟨_, ⟨_, same, evicted⟩ | ⟨allRoots, ⟨_, same, evicted⟩ | ⟨impossible, _⟩⟩⟩
  · cases impossible
  · cases same
    exact ⟨evicted, by simp⟩
  · cases same
    exact ⟨evicted, fun _ => allRoots⟩
  · cases impossible

/-- The second loop of an insertion: evict until `bytes` more fit.  `false`
when nothing is left to evict. -/
def makeRoom (bytes : Nat) (cache : PrefixCache S) : Except Fault (Bool × PrefixCache S) :=
  match step : pressureStep bytes cache with
  | .error fault => .error fault
  | .ok .enough => .ok (true, cache)
  | .ok (.exhausted after) => .ok (false, after)
  | .ok (.evicted _ after) =>
    have := evict_length_lt (pressureStep_evicted step).1
    makeRoom bytes after
termination_by cache.entries.length

/-- The end of an insertion: append the new entry. -/
def store (now : Instant) (tokens : List Token) (snap : S) (bytes : Nat)
    (root : Bool) (scope : Option Scope) (cache : PrefixCache S) :
    Except Fault (PrefixCache S) := do
  let (tick, ticked) ← nextTick cache
  let used ← u64Add ticked.used bytes
  let stored ← u64Add ticked.stats.stored 1
  pure
    { ticked with
      used := used
      entries := ticked.entries ++
        [{ scope := scope
           expires := scope.map fun _ => now + ttl
           tokens := tokens
           snap := snap
           bytes := bytes
           lastUsed := tick
           root := root }]
      stats := { ticked.stats with stored := stored } }

lemma expireEntry_entries {now : Instant} {kept : PrefixCache S} {entry : Entry S}
    (step : expireEntry now kept entry = .ok after) :
    after.entries = kept.entries ++ [entry].filter fun entry => !entry.expiredAt now := by
  unfold expireEntry at step
  split at step
  · rename_i expired
    simp only [bind, bind_eq_ok, pure, Except.pure, Except.ok.injEq] at step
    obtain ⟨_, _, _, _, rfl⟩ := step
    simp [expired]
  · rename_i live
    cases step
    simp [live]

/-- What is left after expiry, in the old order. -/
lemma expire_entries {now : Instant} (expired : expire now cache = .ok after) :
    after.entries = cache.entries.filter fun entry => !entry.expiredAt now := by
  suffices general : ∀ (rest : List (Entry S)) (kept : PrefixCache S),
      rest.foldlM (expireEntry now) kept = .ok after →
        after.entries = kept.entries ++ rest.filter fun entry => !entry.expiredAt now by
    simpa using general cache.entries _ expired
  intro rest
  induction rest with
  | nil =>
    intro kept folded
    cases folded
    simp
  | cons entry rest ih =>
    intro kept folded
    simp only [foldlM_cons, bind, bind_eq_ok] at folded
    obtain ⟨next, step, folded⟩ := folded
    rw [ih next folded, expireEntry_entries step, append_assoc, ← filter_append]
    rfl

/-- The part of an insertion after the replacement check: make room among the
roots and among the bytes, then store. -/
def insertFresh (now : Instant) (tokens : List Token) (snap : S) (bytes : Nat) (root : Bool)
    (scope : Option Scope) (live : PrefixCache S) : Except Fault (Bool × PrefixCache S) := do
  let capped ← capRootsFor root live
  let (room, spaced) ← makeRoom bytes capped
  if room then
    let stored ← store now tokens snap bytes root scope spaced
    pure (true, stored)
  else
    pure (false, spaced)

/-- Whether an entry is the one an insertion replaces. -/
def Entry.sameKey (scope : Option Scope) (tokens : List Token) (entry : Entry S) : Bool :=
  entry.scope == scope && entry.tokens == tokens

/-- The entry an insertion replaces is there, and taking it out leaves fewer
entries than there were. -/
lemma find_sameKey {now : Instant} {live : PrefixCache S} {old : Entry S} {scope : Option Scope}
    {tokens : List Token} {index : Nat} (expired : expire now cache = .ok live)
    (found : live.entries.zipIdx.find? (fun candidate => candidate.1.sameKey scope tokens) =
      some (old, index)) :
    live.entries[index]? = some old ∧
      (swapRemove live.entries index).length < cache.entries.length := by
  have present : live.entries[index]? = some old :=
    mem_zipIdx_iff_getElem?.mp (mem_of_find?_eq_some found)
  refine ⟨present, (Nat.lt_of_succ_le (swapRemove_length present).le).trans_le ?_⟩
  rw [expire_entries expired]
  exact length_filter_le _ _

/-- Store `snap` as the state after `tokens`.  An entry with the same scope
and tokens is taken out first and the insertion starts again, as a root if
either was one.  Returns whether the snapshot was stored. -/
def insertScoped [Snapshot S] (clock : Nat → Instant) (tokens : List Token) (snap : S) (root : Bool)
    (scope : Option Scope) (cache : PrefixCache S) : Except Fault (Bool × PrefixCache S) :=
  match expired : expire (clock 0) cache with
  | .error fault => .error fault
  | .ok live =>
    let bytes := (Snapshot.bytes snap).toNat
    if tokens.isEmpty || !live.fits bytes then
      .ok (false, live)
    else
      match found :
          live.entries.zipIdx.find? (fun candidate => candidate.1.sameKey scope tokens) with
      | some (old, index) =>
        match u64Sub live.used old.bytes with
        | .error fault => .error fault
        | .ok used =>
          have := (find_sameKey expired found).2
          -- the inner call's clock readings follow the outer call's one
          insertScoped (fun reading => clock (reading + 1)) tokens
            snap (root || old.root) scope
            { live with
              entries := swapRemove live.entries index
              used := used }
      | none => insertFresh (clock 1) tokens snap bytes root scope live
termination_by cache.entries.length

/-- `insert`: an insertion outside every scope. -/
def insert [Snapshot S] (clock : Nat → Instant) (tokens : List Token) (snap : S) (root : Bool)
    (cache : PrefixCache S) : Except Fault (Bool × PrefixCache S) :=
  insertScoped clock tokens snap root none cache

end PrefixCache

end

open Joshua.Foundation

/-- A byte slice: its length is a machine word. -/
abbrev Slice := { bytes : List UInt8 // bytes.length < 2 ^ 64 }

namespace PrefixKey

/-- `HASH_CHUNK`: tokens covered by one step of the chain. -/
def hashChunk : Nat := 16

/-- `STORAGE_CHUNK`: tokens covered by one storage chunk. -/
def storageChunk : Nat := 64

/-- The arguments of `Salt::new`. -/
structure SaltParts where
  modelFingerprint : Slice
  tokenizerDigest : Slice
  templateId : Slice
  tenant : Slice
deriving DecidableEq

/-- What `Salt::new` hashes: its domain, then each part behind its length. -/
def SaltParts.preimage (parts : SaltParts) : List UInt8 :=
  ascii "joshua/prefix-salt/v1" ++
    [parts.modelFingerprint.1, parts.tokenizerDigest.1, parts.templateId.1,
      parts.tenant.1].flatMap lengthPrefixed

/-- What `ChainBuilder::new` hashes. -/
def seedPreimage (salt : Digest) : List UInt8 :=
  ascii "joshua/prefix-key/v1" ++ salt.toList

/-- What `push` hashes: the digest before and sixteen token ids. -/
def stepPreimage (tip : Digest) (chunk : List Token) : List UInt8 :=
  tip.toList ++ chunk.flatMap fun token => leBytes 4 token.toNat

structure ChainBuilder where
  tip : Digest
deriving DecidableEq

section Hash
variable (sha256 : List UInt8 → Digest)

/-- `Salt::new`. -/
def SaltParts.salt (parts : SaltParts) : Digest :=
  sha256 parts.preimage

namespace ChainBuilder

def new (salt : Digest) : ChainBuilder :=
  ⟨sha256 (seedPreimage salt)⟩

def fromTip (tip : Digest) : ChainBuilder :=
  ⟨tip⟩

/-- `push`: the key of the next chunk, and the builder behind it. -/
def push (builder : ChainBuilder) (chunk : List Token) : Digest × ChainBuilder :=
  let key := sha256 (stepPreimage builder.tip chunk)
  (key, ⟨key⟩)

/-- One `push` after the other. -/
def pushAll (builder : ChainBuilder) : List (List Token) → List Digest
  | [] => []
  | chunk :: rest =>
    let (key, next) := builder.push sha256 chunk
    key :: next.pushAll rest

end ChainBuilder

/-- `chain`: a key for each complete chunk; an incomplete tail has none. -/
def chain (salt : Digest) (tokens : List Token) : List Digest :=
  (ChainBuilder.new sha256 salt).pushAll sha256 (chunksExact hashChunk tokens)

end Hash

/-- `shared_chunks`: the number of equal leading keys. -/
def sharedChunks (first second : List Digest) : Nat :=
  ((first.zip second).takeWhile fun pair =>
    decide (pair.1 = pair.2)).length

/-- `usable_chunks`: at least one prompt token is left. -/
def usableChunks (promptLen : Nat) : Nat :=
  (promptLen - 1) / hashChunk

/-- `storage_keys`: the keys at complete storage boundaries, which are at the
positions 3, 7, 11 and so on. -/
def storageKeys (keys : List Digest) : List Digest :=
  (List.range (keys.length / (storageChunk / hashChunk))).filterMap
    fun boundary => keys[boundary * (storageChunk / hashChunk) + (storageChunk / hashChunk - 1)]?

end PrefixKey

/-! ## Cache namespaces -/

namespace Affinity

/-- The headers of a request that its cache namespace depends on, each with
the value that `get` returns. -/
structure HeaderMap where
  authorization : Option Slice
  apiKey : Option Slice
  cacheScope : Option Slice
  affinity : Option Slice

/-- `HeaderValue::to_str`: visible ASCII and tabs. -/
def toStr (value : Slice) : Option Slice :=
  if value.1.all fun byte => byte = 9 || 32 ≤ byte && byte < 127 then some value else none

/-- What follows the scheme; such a string has no white space but spaces and
tabs. -/
def bearerKey (value : List UInt8) : List UInt8 :=
  (value.dropWhile (· ≠ 32)).tail.dropWhile fun byte => byte = 9 || byte = 32

lemma bearerKey_length (value : Slice) : (bearerKey value.1).length < 2 ^ 64 := by
  have inside : bearerKey value.1 <:+ value.1 :=
    ((dropWhile_suffix _).trans (tail_suffix _)).trans (dropWhile_suffix _)
  exact lt_of_le_of_lt inside.length_le value.2

/-- The key of `Bearer <key>`, the scheme in any case. -/
def bearer (value : Slice) : Option Slice :=
  if 32 ∈ value.1 ∧ (value.1.takeWhile (· ≠ 32)).map
      (fun byte => if 65 ≤ byte ∧ byte ≤ 90 then byte + 32 else byte) = ascii "bearer" then
    some ⟨bearerKey value.1, bearerKey_length value⟩
  else none

def presentedApiKey (headers : HeaderMap) : Option Slice :=
  ((headers.authorization.bind toStr).bind bearer).or (headers.apiKey.bind toStr)

def emptySlice : Slice :=
  ⟨[], Nat.two_pow_pos 64⟩

def owner (headers : HeaderMap) : Slice :=
  (presentedApiKey headers).getD emptySlice

/-- The hint of `cache_scope`. -/
def hint (headers : HeaderMap) : Slice :=
  (headers.cacheScope.or headers.affinity).getD emptySlice

lemma toList_length (scope : Scope) : scope.toList.length < 2 ^ 64 := by
  rw [Vector.length_toList]
  decide

def scopeBytes (scope : Scope) : Slice :=
  ⟨scope.toList, toList_length scope⟩

lemma leBytes_short (number : Nat) : (leBytes 4 number).length < 2 ^ 64 := by
  rw [leBytes_length]
  decide

/-- `to_le_bytes`. -/
def contextBytes (context : UInt32) : Slice :=
  ⟨leBytes 4 context.toNat, leBytes_short _⟩

/-- Two hexadecimal digits for each byte. -/
def hexDigits (scope : Scope) : List UInt8 :=
  scope.toList.flatMap fun byte =>
    [byte / 16, byte % 16].map fun digit => if digit < 10 then 48 + digit else 87 + digit

lemma hexDigits_length (scope : Scope) : (hexDigits scope).length < 2 ^ 64 := by
  simp [hexDigits, length_flatMap]

def encode (scope : Scope) : Slice :=
  ⟨hexDigits scope, hexDigits_length scope⟩

section Hash
variable (sha256 : List UInt8 → Digest)

/-- `digest`: each part behind its length. -/
def digest (parts : List Slice) : Scope :=
  sha256 ((parts.map Subtype.val).flatMap lengthPrefixed)

def cacheScope (headers : HeaderMap) (context : Option UInt32) : Scope :=
  digest sha256 [owner headers, hint headers, contextBytes (context.getD 0)]

/-- `namespace`. -/
def namespaceOf (scope : Option Scope) (context : Option UInt32) : Option Scope :=
  scope.map fun scope =>
    context.elim scope fun context => digest sha256 [scopeBytes scope, contextBytes context]

lemma namespaceOf_isSome (scope : Scope) (context : Option UInt32) :
    (namespaceOf sha256 (some scope) context).isSome := rfl

def workerNamespace (scope : Scope) (context : Option UInt32) (key : Option Slice) : Scope :=
  (namespaceOf sha256 (some (digest sha256
    [key.getD emptySlice, encode scope, contextBytes (context.getD 0)])) context).get
      (namespaceOf_isSome _ _ _)

end Hash

end Affinity

end Joshua
