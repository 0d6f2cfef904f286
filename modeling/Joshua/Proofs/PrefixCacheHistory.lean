/-
Module: Joshua.Proofs.PrefixCacheHistory
Purpose: Whole runs of the prefix cache, and what a lookup returns in terms of
  the calls made before: the snapshot that was last stored under the very
  scope and tokens, and the longest one that can be resumed.
Trusted boundary: none
-/
import Joshua.Proofs.PrefixCacheAccounts

namespace Joshua.PrefixCache
open Joshua.Foundation

variable {S E : Type}

section

/-- One call on the cache.  `insert` and `take` are the scoped calls at no
scope. -/
inductive Op (S E : Type)
  | insertScoped (clock : Nat → Instant) (tokens : List Token) (snap : S)
      (root : Bool) (scope : Option Scope)
  | takeScoped (clock : Nat → Instant) (prompt : List Token)
      (scope : Option Scope) (duplicate : S → Except E S)
  | shed
  | clear
  | expire (now : Instant)

namespace Op

def apply [Snapshot S] (cache : PrefixCache S) : Op S E → Except Fault (PrefixCache S)
  | insertScoped clock tokens snap root scope =>
    (PrefixCache.insertScoped clock tokens snap root scope cache).map Prod.snd
  | takeScoped clock prompt scope duplicate =>
    (PrefixCache.takeScoped clock prompt scope duplicate cache).map Prod.snd
  | shed => PrefixCache.shed cache
  | clear => .ok (PrefixCache.clear cache)
  | expire now => PrefixCache.expire now cache

/-- What one call can add to the event counters. -/
def events : Op S E → Nat
  | takeScoped _ prompt _ _ => 1 + prompt.length
  | _ => 1

end Op

/-- Calls made one after the other. -/
def run [Snapshot S] (ops : List (Op S E)) (cache : PrefixCache S) : Except Fault (PrefixCache S) :=
  ops.foldlM Op.apply cache

lemma run_cons [Snapshot S] (op : Op S E) (rest : List (Op S E)) (cache : PrefixCache S) :
    run (op :: rest) cache = (op.apply cache).bind (run rest) :=
  List.foldlM_cons

/-- What a run can add to the event counters: its calls, and the prompt
tokens of its lookups. -/
def runEvents (ops : List (Op S E)) : Nat :=
  (ops.map Op.events).sum

variable {cache : PrefixCache S} {budget : Nat}

lemma Accounts.clear {events : Nat} (accounts : Accounts budget events cache) :
    Accounts budget events (PrefixCache.clear cache) :=
  { accounts with
    used_eq := rfl
    used_le := Nat.zero_le _
    keys_nodup := List.nodup_nil
    roots_le := Nat.zero_le _
    held_le := by
      have heldLe := accounts.held_le
      simp only [PrefixCache.clear, List.length_nil]
      omega }

/-- One call keeps the books balanced. -/
lemma Op.apply_spec [Snapshot S] {events : Nat} (op : Op S E)
    (accounts : Accounts budget events cache) (small : budget < 2 ^ 63) :
    Checked (events + op.events < u64Limit)
      (Accounts budget (events + op.events)) (op.apply cache) := by
  have later := Nat.le_succ events
  cases op with
  | insertScoped clock tokens snap root scope =>
    exact Checked.map (insertScoped_spec clock tokens snap root scope accounts small)
      fun _ facts => facts.1
  | takeScoped clock prompt scope duplicate =>
    exact Checked.map (takeScoped_spec clock prompt scope duplicate accounts)
      fun _ balanced => balanced
  | shed =>
    exact ((shed_spec accounts).imp fun _ facts => facts.1.mono later).safe_imp later.trans_lt
  | clear => exact accounts.clear.mono later
  | expire now =>
    exact ((expire_spec now accounts).imp fun _ balanced =>
      balanced.mono later).safe_imp later.trans_lt

/-- A run keeps the books balanced. -/
lemma run_spec [Snapshot S] {events : Nat} (ops : List (Op S E))
    (accounts : Accounts budget events cache) (small : budget < 2 ^ 63) :
    Checked (events + runEvents ops < u64Limit)
      (Accounts budget (events + runEvents ops)) (run ops cache) := by
  induction ops generalizing cache events with
  | nil => exact accounts
  | cons op rest ih =>
    have total : events + runEvents (op :: rest) = events + op.events + runEvents rest := by
      simp [runEvents, add_assoc]
    have step := op.apply_spec accounts small
    rw [run_cons, total]
    exact .bind (step.safe_imp (lt_of_le_of_lt (Nat.le_add_right _ _)))
      fun _ balanced => ih balanced

/-!
The bound on the event counters is needed.  One root that is looked up again
and again counts a hit each time, and the counter of uses is the first to
overflow.
-/

section Overflow

/-- A snapshot that is nothing but its size. -/
instance sizedSnapshot : Snapshot UInt64 := ⟨id⟩

def rootEntry (lastUsed : Nat) : Entry UInt64 :=
  { scope := none
    expires := none
    tokens := [1]
    snap := 1
    bytes := 1
    lastUsed := lastUsed
    root := true }

/-- A budget of one byte holds the root `[1]`, which was hit `count` times. -/
def hitRoot (count : Nat) : PrefixCache UInt64 :=
  { entries := [rootEntry (count + 1)]
    budget := 1
    used := 1
    tick := count + 1
    stats := { hits := count, tokensReused := count, stored := 1 } }

/-- Store the root `[1]`. -/
def storeRoot : Op UInt64 Unit :=
  .insertScoped (fun _ => 0) [1] 1 true none

/-- Look up the prompt `[1, 2]`. -/
def lookUpRoot : Op UInt64 Unit :=
  .takeScoped (fun _ => 0) [1, 2] none .ok

lemma storeRoot_inserts : insertScoped (fun _ => 0) [1] (1 : UInt64) true none (new 1) =
    .ok (true, hitRoot 0) := by
  simp [insertScoped, expire, new, fits, Snapshot.bytes, insertFresh, capRootsFor, capRoots,
    makeRoom, pressureStep, store, nextTick, rootCount, maxRoots, u64Add, u64Limit,
    bind, Except.bind, pure, Except.pure, hitRoot, rootEntry]

lemma storeRoot_apply : storeRoot.apply (new 1) = .ok (hitRoot 0) := by
  rw [storeRoot, Op.apply, storeRoot_inserts]
  rfl

lemma lookUpRoot_apply {count : Nat} (few : count + 1 < u64Limit) :
    lookUpRoot.apply (hitRoot count) =
      if count + 2 < u64Limit then .ok (hitRoot (count + 1))
      else .error .overflow := by
  have found : best (fun _ => 0) [1, 2] none (hitRoot count) = some (rootEntry (count + 1), 0) := by
    simp [best, hitRoot, rootEntry, Entry.matchesPrompt, Entry.liveAt, maxByKey?]
  simp only [lookUpRoot, Op.apply, PrefixCache.takeScoped, found]
  by_cases next : count + 2 < u64Limit
  · simp [hitRoot, rootEntry, nextTick, recordHit, u64Add, next, few, bind,
      Except.bind, pure, Except.pure, Except.map]
  · simp [hitRoot, nextTick, u64Add, next, bind, Except.bind, Except.map]

lemma lookUps_overflow (times : Nat) {count : Nat} (few : count + 1 < u64Limit)
    (many : u64Limit ≤ count + 1 + times) :
    run (List.replicate times lookUpRoot) (hitRoot count) = .error .overflow := by
  induction times generalizing count with
  | zero => omega
  | succ times ih =>
    rw [List.replicate_succ, run_cons, lookUpRoot_apply few]
    by_cases next : count + 2 < u64Limit
    · rw [if_pos next]
      exact ih next (by omega)
    · rw [if_neg next]
      rfl

/-- A long enough run overflows a counter. -/
theorem run_overflows : ∃ ops : List (Op UInt64 Unit),
      run ops (new 1 : PrefixCache UInt64) = .error .overflow := by
  refine ⟨storeRoot :: List.replicate u64Limit lookUpRoot, ?_⟩
  rw [run_cons, storeRoot_apply, Except.bind]
  exact lookUps_overflow u64Limit (by decide) (Nat.le_add_left _ _)

end Overflow

end

open Joshua.Foundation List

/-! ## What the calls leave of the entries -/

variable {scope : Option Scope} {cache after middle : PrefixCache S} {now : Instant}
  {entry : Entry S}

variable {root success : Bool}

lemma shed_fewer {cache after : PrefixCache S}
    (shedded : shed cache = .ok after) : Fewer cache after := by
  rw [shed] at shedded
  split at shedded
  next => cases shedded
  next after' step =>
    cases shedded
    exact evict_fewer step
  next middle step =>
    have := evict_length_lt step
    exact (evict_fewer step).trans (shed_fewer shedded)
termination_by cache.entries.length

lemma expire_fewer (expired : expire now cache = .ok after) : Fewer cache after := by
  rw [Fewer, expire_entries expired]
  exact filter_sublist.subperm

/-- What an insertion can leave: entries that were there, and if it succeeds
the new one, with no other of its key. -/
inductive Inserts (tokens : List Token) (snap : S) (scope : Option Scope)
    (cache : PrefixCache S) : Bool → PrefixCache S → Prop
  | refused {after : PrefixCache S} (fewer : Fewer cache after) :
      Inserts tokens snap scope cache false after
  | stored {kept after : PrefixCache S} {entry : Entry S}
      (fewer : Fewer cache kept)
      (fresh : ∀ other ∈ kept.entries, other.key ≠ (scope, tokens))
      (appended : after.entries = kept.entries ++ [entry])
      (key : entry.key = (scope, tokens)) (holds : entry.snap = snap) :
      Inserts tokens snap scope cache true after

variable {tokens : List Token}

lemma Inserts.of_fewer {snap : S} (fewer : Fewer cache middle)
    (inserts : Inserts tokens snap scope middle success after) :
    Inserts tokens snap scope cache success after := by
  cases inserts with
  | refused later => exact .refused (fewer.trans later)
  | stored later fresh appended key holds =>
    exact .stored (fewer.trans later) fresh appended key holds

lemma store_entries {snap : S} {bytes : Nat}
    (stored : store now tokens snap bytes root scope cache = .ok after) :
    ∃ entry, after.entries = cache.entries ++ [entry] ∧ entry.key = (scope, tokens) ∧
      entry.snap = snap := by
  obtain ⟨⟨tick, ticked⟩, tick_, stored⟩ := bind_eq_ok.mp stored
  obtain ⟨used, _, stored⟩ := bind_eq_ok.mp stored
  obtain ⟨count, _, stored⟩ := bind_eq_ok.mp stored
  obtain ⟨_, _, sameTick⟩ := bind_eq_ok.mp tick_
  cases sameTick
  cases stored
  exact ⟨_, rfl, rfl, rfl⟩

lemma insertFresh_inserts {snap : S} {bytes : Nat} {live : PrefixCache S}
    (fresh : ∀ entry ∈ live.entries, entry.key ≠ (scope, tokens))
    (inserted : insertFresh now tokens snap bytes root scope live = .ok (success, after)) :
    Inserts tokens snap scope live success after := by
  obtain ⟨capped, cap, inserted⟩ := bind_eq_ok.mp inserted
  obtain ⟨⟨room, spaced⟩, made, inserted⟩ := bind_eq_ok.mp inserted
  have fewer := (capRootsFor_fewer cap).trans (makeRoom_fewer made)
  cases room with
  | false =>
    cases inserted
    exact .refused fewer
  | true =>
    obtain ⟨stored, store_, same⟩ := bind_eq_ok.mp inserted
    cases same
    obtain ⟨_, appended, key, holds⟩ := store_entries store_
    exact .stored fewer (fun j held => fresh j (fewer.subset held)) appended key holds

/-- What an insertion makes room among: entries that were there, without those
of its key and those whose lease has run out. It is a root if it was to be one
or takes the place of one. -/
structure Reaches (clock : Nat → Instant) (tokens : List Token) (root : Bool)
    (scope : Option Scope) (cache live : PrefixCache S) (kind : Bool) : Prop where
  fewer : Fewer cache live
  kept : ∀ entry ∈ cache.entries, (∀ reading, entry.expiredAt (clock reading) = false) →
    entry.key ≠ (scope, tokens) → entry ∈ live.entries
  roots : kind = true → root = true ∨ live.rootCount < cache.rootCount

lemma Reaches.of_expire {clock : Nat → Instant} (expired : expire (clock 0) cache = .ok after) :
    Reaches clock tokens root scope cache after root := by
  refine ⟨expire_fewer expired, fun entry held fresh _ => ?_, .inl⟩
  rw [expire_entries expired, mem_filter, fresh 0]
  exact ⟨held, rfl⟩

/-- The entry of the key is taken out before the second try. -/
lemma Reaches.replace {clock : Nat → Instant} {live left : PrefixCache S} {old : Entry S}
    {kind : Bool} (perm : (old :: left.entries).Perm live.entries) (key : old.key = (scope, tokens))
    (first : Reaches clock tokens root scope cache live root)
    (second : Reaches (fun reading => clock (reading + 1)) tokens (root || old.root) scope left
      after kind) : Reaches clock tokens root scope cache after kind := by
  have fewer : Fewer live left := .of_perm perm
  refine ⟨first.fewer.trans (fewer.trans second.fewer), fun entry held fresh other => ?_,
    fun isRoot => ?_⟩
  · have inside : entry ∈ old :: left.entries :=
        perm.mem_iff.mpr (first.kept entry held fresh other)
    rcases mem_cons.mp inside with rfl | inside
    · exact absurd key other
    · exact second.kept entry inside (fun reading => fresh (reading + 1)) other
  · have counted : live.rootCount = ([old].countP fun entry => entry.root) + left.rootCount := by
      rw [rootCount, ← perm.countP_eq, ← singleton_append, countP_append]
      rfl
    have bounded := first.fewer.rootCount_le
    have below := second.fewer.rootCount_le
    rcases second.roots isRoot with given | fewerRoots
    · rcases Bool.or_eq_true _ _ ▸ given with given | wasRoot
      · exact .inl given
      · rw [countP_singleton, if_pos wasRoot] at counted
        exact .inr (by omega)
    · exact .inr (by omega)

/-- Everything an insertion can do: it is refused, or makes room and stores. -/
lemma insertScoped_cases [Snapshot S] {clock : Nat → Instant} {tokens : List Token} {snap : S}
    {root success : Bool} {scope : Option Scope} {cache after : PrefixCache S}
    (inserted : insertScoped clock tokens snap root scope cache = .ok (success, after)) :
    ∃ live kind, Reaches clock tokens root scope cache live kind ∧
      ((success = false ∧ after = live) ∨
        ((∀ entry ∈ live.entries, entry.key ≠ (scope, tokens)) ∧ ∃ now,
          insertFresh now tokens snap (Snapshot.bytes snap).toNat kind scope live =
            .ok (success, after))) := by
  rw [insertScoped] at inserted
  split at inserted
  next => cases inserted
  next live expired =>
    have reaches : Reaches clock tokens root scope cache live root := .of_expire expired
    dsimp only at inserted
    split at inserted
    next =>
      cases inserted
      exact ⟨_, _, reaches, .inl ⟨rfl, rfl⟩⟩
    next =>
      split at inserted
      next old i found =>
        split at inserted
        next => cases inserted
        next used _ =>
          obtain ⟨pos, shorter⟩ := find_sameKey expired found
          obtain ⟨last, kind, second, ends⟩ := insertScoped_cases inserted
          have same := find?_some found
          have key : old.key = (scope, tokens) := Entry.sameKey_iff.mp same
          exact ⟨last, kind, .replace (swapRemove_perm pos) key reaches second, ends⟩
      next missing =>
        exact ⟨live, root, reaches, .inr ⟨key_ne_of_missing missing, _, inserted⟩⟩
termination_by cache.entries.length

lemma insertScoped_inserts [Snapshot S] {clock : Nat → Instant} {snap : S}
    (inserted : insertScoped clock tokens snap root scope cache = .ok (success, after)) :
    Inserts tokens snap scope cache success after := by
  obtain ⟨live, kind, reaches, ⟨rfl, rfl⟩ | ⟨fresh, now, inserted⟩⟩ := insertScoped_cases inserted
  · exact .refused reaches.fewer
  · exact .of_fewer reaches.fewer (insertFresh_inserts fresh inserted)

/-! ## Roots under byte pressure -/

lemma mem_of_evict {found : Bool} (evicted : evict root cache = .ok (found, after))
    (held : entry ∈ cache.entries) (other : entry.root ≠ root) : entry ∈ after.entries := by
  rcases evict_cases evicted with ⟨_, rfl, _⟩ | ⟨_, gone, kind, _, perm, _⟩
  · exact held
  · rcases mem_cons.mp (perm.mem_iff.mpr held) with rfl | inside
    · exact absurd kind other
    · exact inside

/-- The byte-pressure loop takes a root out only when it leaves no parked
conversation. -/
lemma makeRoom_roots {bytes : Nat} {room : Bool} {cache after : PrefixCache S}
    (made : makeRoom bytes cache = .ok (room, after)) (held : entry ∈ cache.entries)
    (isRoot : entry.root = true) (gone : entry ∉ after.entries) :
    ∀ other ∈ after.entries, other.root = true := by
  have fewer := makeRoom_fewer made
  obtain rfl | ⟨kind, middle, evicted, allRoots, made⟩ := makeRoom_cases made
  · exact absurd held gone
  · have := evict_length_lt evicted
    cases kind with
    | false => exact makeRoom_roots made (mem_of_evict evicted held (by simp [isRoot])) isRoot gone
    | true => exact fun other inside => allRoots rfl other (fewer.subset inside)
termination_by cache.entries.length

/-- Only the root cap takes a root out before. -/
lemma insertFresh_roots {snap : S} {bytes : Nat} {live : PrefixCache S}
    (inserted : insertFresh now tokens snap bytes root scope live = .ok (success, after))
    (held : entry ∈ live.entries) (isRoot : entry.root = true) (gone : entry ∉ after.entries) :
    (root = true ∧ maxRoots ≤ live.rootCount) ∨
      ∀ other ∈ after.entries, other.key ≠ (scope, tokens) → other.root = true := by
  obtain ⟨capped, cap, inserted⟩ := bind_eq_ok.mp inserted
  obtain ⟨⟨room, spaced⟩, made, inserted⟩ := bind_eq_ok.mp inserted
  by_cases inside : entry ∈ capped.entries
  · right
    cases room with
    | false =>
      cases inserted
      exact fun other present _ => makeRoom_roots made inside isRoot gone other present
    | true =>
      obtain ⟨stored, store_, same⟩ := bind_eq_ok.mp inserted
      cases same
      obtain ⟨last, appended, key, _⟩ := store_entries store_
      rw [appended] at gone ⊢
      intro other present differs
      rcases mem_append.mp present with present | new
      · exact makeRoom_roots made inside isRoot (fun present => gone (mem_append_left _ present))
          other present
      · rw [mem_singleton.mp new] at differs
        exact absurd key differs
  · left
    cases root with
    | false =>
      cases cap
      exact absurd held inside
    | true =>
      rw [capRootsFor, if_pos rfl, capRoots] at cap
      split at cap
      next full => exact ⟨rfl, full⟩
      next =>
        cases cap
        exact absurd held inside

/-- An insertion takes a root out only under the root cap, or when it leaves no
other parked conversation. -/
lemma insertScoped_roots [Snapshot S] {clock : Nat → Instant} {snap : S}
    (few : cache.rootCount ≤ maxRoots)
    (inserted : insertScoped clock tokens snap root scope cache = .ok (success, after))
    (held : entry ∈ cache.entries) (isRoot : entry.root = true)
    (live : ∀ reading, entry.expiredAt (clock reading) = false)
    (other : entry.key ≠ (scope, tokens)) (gone : entry ∉ after.entries) :
    (root = true ∧ cache.rootCount = maxRoots) ∨
      ∀ other ∈ after.entries, other.key ≠ (scope, tokens) → other.root = true := by
  obtain ⟨kept, kind, reaches, ⟨_, rfl⟩ | ⟨_, now, inserted⟩⟩ := insertScoped_cases inserted
  · exact absurd (reaches.kept entry held live other) gone
  · refine (insertFresh_roots inserted (reaches.kept entry held live other) isRoot gone).imp_left ?_
    rintro ⟨capped, full⟩
    have bounded := reaches.fewer.rootCount_le
    exact ⟨(reaches.roots capped).resolve_right (by omega), by omega⟩

/-- In every state a run reaches, the recorded bytes are the bytes held and
fit the budget, no key is held twice, the roots are few, an insertion stores
exactly what could ever fit, and byte pressure evicts a root only when no
parked conversation is left: a root that an insertion takes out, and whose lease
and key are not the reason, leaves no parked conversation but the new one,
unless a root was inserted and the root cap is reached.  No counter ever
underflows, and none overflows while the calls and the looked-up prompt tokens
number below `2 ^ 64`. -/
theorem run_books_balance [Snapshot S] (budget : Nat)
    (small : budget < 2 ^ 63) (ops : List (Op S E)) :
    (∀ fault, run ops (new budget : PrefixCache S) = .error fault →
      fault = .overflow ∧ u64Limit ≤ runEvents ops) ∧
    ∀ cache : PrefixCache S, run ops (new budget) = .ok cache → cache.budget = budget ∧
      cache.used = (cache.entries.map Entry.bytes).sum ∧
      cache.used ≤ budget ∧
      (cache.entries.map Entry.key).Nodup ∧
      cache.rootCount ≤ maxRoots ∧
      (∀ bytes (during after : PrefixCache S),
        pressureStep bytes during = .ok (.evicted true after) →
        ∀ entry ∈ during.entries, entry.root = true) ∧
      (∀ bytes room (during after : PrefixCache S), makeRoom bytes during = .ok (room, after) →
        ∀ entry ∈ during.entries, entry.root = true → entry ∉ after.entries →
          ∀ other ∈ after.entries, other.root = true) ∧
      ∀ clock tokens snap root scope stored after,
        insertScoped clock tokens snap root scope cache = .ok (stored, after) →
        (stored = true ↔ tokens ≠ [] ∧ 0 < (Snapshot.bytes snap).toNat ∧
            (Snapshot.bytes snap).toNat ≤ budget) ∧
        ∀ entry ∈ cache.entries, entry.root = true →
          (∀ reading, entry.expiredAt (clock reading) = false) → entry.key ≠ (scope, tokens) →
          entry ∉ after.entries → (root = true ∧ cache.rootCount = maxRoots) ∨
            ∀ other ∈ after.entries, other.key ≠ (scope, tokens) → other.root = true := by
  have checked := run_spec ops (Accounts.new (S := S) budget) small
  rw [zero_add] at checked
  constructor
  · intro fault failed
    have overflow := checked.fault_eq_overflow failed
    subst overflow
    rw [failed] at checked
    exact ⟨rfl, Nat.le_of_not_lt checked⟩
  · intro cache reached
    have accounts := checked.post_of_eq_ok reached
    refine ⟨accounts.budget_eq, accounts.used_eq, accounts.used_le,
      accounts.keys_nodup, accounts.roots_le, ?_, ?_, ?_⟩
    · intro bytes during after step
      exact (pressureStep_evicted step).2 rfl
    · intro bytes room during after made entry held isRoot gone
      exact makeRoom_roots made held isRoot gone
    · intro clock tokens snap root scope stored after inserted
      refine ⟨((insertScoped_spec clock tokens snap root scope accounts small).post_of_eq_ok
        inserted).2, fun entry held isRoot live other gone => ?_⟩
      exact insertScoped_roots accounts.roots_le inserted held isRoot live other gone

/-- A stored root that was looked up once. -/
theorem run_books_balance_of_root : run [storeRoot, lookUpRoot] (new 1) = .ok (hitRoot 1) ∧
      (hitRoot 1).used = ((hitRoot 1).entries.map Entry.bytes).sum ∧
      (hitRoot 1).rootCount ≤ maxRoots := by
  have reached : run [storeRoot, lookUpRoot] (new 1) = .ok (hitRoot 1) := by
    rw [run_cons, storeRoot_apply, Except.bind, run_cons,
      lookUpRoot_apply (by decide), if_pos (by decide)]
    rfl
  have facts := (run_books_balance 1 (by decide) [storeRoot, lookUpRoot]).2 (hitRoot 1) reached
  exact ⟨reached, facts.2.1, facts.2.2.2.2.1⟩

/-! ## Lookups -/

variable {prompt : List Token}

section Lookup
variable {clock : Nat → Instant} {duplicate : S → Except E S} {cache after : PrefixCache S}

/-- What a lookup can do: find nothing, fail to copy a root, copy a root and
renew its lease, or take a parked entry out. -/
inductive Takes (clock : Nat → Instant) (prompt : List Token) (scope : Option Scope)
    (duplicate : S → Except E S) (cache : PrefixCache S) :
    Except E (Option (Hit S)) → PrefixCache S → Prop
  | nothing : Takes clock prompt scope duplicate cache (.ok none) cache
  | root {after : PrefixCache S} {entry : Entry S} {index now : Nat}
      {result : Except E (Option (Hit S))}
      (found : best clock prompt scope cache = some (entry, index))
      (kind : entry.root = true)
      (entries : after.entries = cache.entries.set index { entry with
          lastUsed := now
          expires := scope.map fun _ => clock cache.entries.length + ttl })
      (copied : result = (duplicate entry.snap).map fun snap =>
        some ⟨snap, entry.tokens.length, true⟩) :
      Takes clock prompt scope duplicate cache result after
  | parked {after : PrefixCache S} {entry : Entry S} {index : Nat}
      (found : best clock prompt scope cache = some (entry, index))
      (kind : entry.root = false)
      (removed : (entry :: after.entries).Perm cache.entries) :
      Takes clock prompt scope duplicate cache
        (.ok (some ⟨entry.snap, entry.tokens.length, false⟩)) after

lemma recordHit_entries {len : Nat} {counted : PrefixCache S}
    (recorded : recordHit len cache = .ok counted) : counted.entries = cache.entries := by
  iterate 2 obtain ⟨_, _, recorded⟩ := bind_eq_ok.mp recorded
  cases recorded
  rfl

lemma takeScoped_takes {result : Except E (Option (Hit S))}
    (taken : takeScoped clock prompt scope duplicate cache = .ok (result, after)) :
    Takes clock prompt scope duplicate cache result after := by
  unfold takeScoped at taken
  split at taken
  next =>
    cases taken
    exact .nothing
  next entry i found =>
    obtain ⟨⟨now, ticked⟩, tick_, taken⟩ := bind_eq_ok.mp taken
    obtain ⟨_, _, sameTick⟩ := bind_eq_ok.mp tick_
    cases sameTick
    dsimp only at taken
    cases kind : entry.root with
    | true =>
      rw [if_pos kind] at taken
      cases copied : duplicate entry.snap with
      | error failure =>
        rw [copied] at taken
        cases taken
        exact .root found kind rfl (by rw [copied]; rfl)
      | ok snap =>
        rw [copied] at taken
        obtain ⟨counted, recorded, same⟩ := bind_eq_ok.mp taken
        cases same
        exact .root found kind (recordHit_entries recorded) (by rw [copied]; rfl)
    | false =>
      rw [if_neg (by simp [kind])] at taken
      obtain ⟨bytesLeft, _, taken⟩ := bind_eq_ok.mp taken
      obtain ⟨counted, recorded, same⟩ := bind_eq_ok.mp taken
      cases same
      refine .parked found kind ?_
      rw [recordHit_entries recorded]
      exact swapRemove_perm (best_found found).1

end Lookup

/-! ## Histories -/

/-- A successful insertion. -/
structure Stored (S : Type) where
  scope : Option Scope
  tokens : List Token
  snap : S

def Stored.key (stored : Stored S) : Option Scope × List Token :=
  (stored.scope, stored.tokens)

/-- The snapshot last stored under a key. -/
def latest (log : List (Stored S)) (key : Option Scope × List Token) : Option S :=
  (log.reverse.find? fun stored => stored.key == key).map Stored.snap

lemma latest_snoc (log : List (Stored S)) (stored : Stored S) (key : Option Scope × List Token) :
    latest (log ++ [stored]) key =
      if stored.key = key then some stored.snap else latest log key := by
  rw [latest, reverse_append, reverse_singleton, singleton_append, List.find?_cons]
  split
  next same => rw [if_pos (by simpa using same)]; rfl
  next other => rw [if_neg (by simpa using other)]; rfl

/-- One call, with the log of the insertions that succeeded. -/
def Op.applyLogged [Snapshot S] (state : PrefixCache S × List (Stored S)) :
    Op S E → Except Fault (PrefixCache S × List (Stored S))
  | .insertScoped clock tokens snap root scope =>
    (PrefixCache.insertScoped clock tokens snap root scope state.1).map
      fun result => (result.2,
        if result.1 then state.2 ++ [⟨scope, tokens, snap⟩] else state.2)
  | op => (op.apply state.1).map fun after => (after, state.2)

/-- Calls made one after the other, from an empty cache. -/
def runLogged [Snapshot S] (budget : Nat) (ops : List (Op S E)) :
    Except Fault (PrefixCache S × List (Stored S)) :=
  ops.foldlM Op.applyLogged (new budget, [])

/-- Every entry holds the snapshot last stored under its key. -/
structure Recorded (log : List (Stored S)) (cache : PrefixCache S) : Prop where
  keys_nodup : (cache.entries.map Entry.key).Nodup
  latest_eq : ∀ entry ∈ cache.entries, latest log entry.key = some entry.snap

namespace Recorded

variable {log : List (Stored S)} {cache after : PrefixCache S}

lemma of_fewer (recorded : Recorded log cache)
    (fewer : Fewer cache after) : Recorded log after where
  keys_nodup := by
    obtain ⟨same, perm, sublist⟩ := fewer
    exact (perm.map Entry.key).nodup_iff.mp (recorded.keys_nodup.sublist (sublist.map Entry.key))
  latest_eq := fun entry held => recorded.latest_eq entry (fewer.subset held)

variable {scope : Option Scope}

lemma of_inserts {snap : S} (recorded : Recorded log cache)
    (inserts : Inserts tokens snap scope cache success after) :
    Recorded (if success then log ++ [⟨scope, tokens, snap⟩] else log) after := by
  cases inserts with
  | refused fewer => exact recorded.of_fewer fewer
  | @stored kept _ entry fewer fresh appended key holds =>
    have before := recorded.of_fewer fewer
    rw [if_pos rfl]
    constructor
    · rw [appended, map_append, map_singleton, key]
      refine nodup_append_comm.mp (nodup_cons.mpr ⟨fun held => ?_, before.keys_nodup⟩)
      obtain ⟨j, inside, same⟩ := mem_map.mp held
      exact fresh j inside same
    · intro j held
      rw [appended, mem_append, mem_singleton] at held
      rw [latest_snoc]
      rcases held with inside | rfl
      · rw [if_neg fun same => fresh j inside same.symm]
        exact before.latest_eq j inside
      · rw [key, holds]
        exact if_pos rfl

lemma of_takes {clock : Nat → Instant} {duplicate : S → Except E S}
    {result : Except E (Option (Hit S))} (recorded : Recorded log cache)
    (takes : Takes clock prompt scope duplicate cache result after) : Recorded log after := by
  cases takes with
  | nothing => exact recorded
  | parked _ _ removed => exact recorded.of_fewer (.of_perm removed)
  | @root _ entry i now _ found kind entries copied =>
    have pos := (best_found found).1
    constructor
    · have keys : after.entries.map Entry.key = cache.entries.map Entry.key := by
        rw [entries]
        exact map_set_of_eq pos rfl
      rw [keys]
      exact recorded.keys_nodup
    · intro j held
      rw [entries] at held
      rcases mem_or_eq_of_mem_set held with inside | rfl
      · exact recorded.latest_eq j inside
      · exact recorded.latest_eq entry (mem_of_getElem? pos)

end Recorded

/-- One call keeps every entry the one last stored under its key. -/
lemma Op.applyLogged_recorded [Snapshot S] {op : Op S E}
    {state after : PrefixCache S × List (Stored S)} (applied : op.applyLogged state = .ok after)
    (recorded : Recorded state.2 state.1) : Recorded after.2 after.1 := by
  cases op with
  | insertScoped clock tokens snap root scope =>
    obtain ⟨⟨success, cache⟩, inserted, same⟩ := map_eq_ok.mp applied
    cases same
    exact recorded.of_inserts (insertScoped_inserts inserted)
  | takeScoped clock prompt scope duplicate =>
    obtain ⟨cache, applied, same⟩ := map_eq_ok.mp applied
    obtain ⟨⟨result, cache'⟩, taken, same'⟩ := map_eq_ok.mp applied
    cases same'
    cases same
    exact recorded.of_takes (takeScoped_takes taken)
  | shed =>
    obtain ⟨cache, shedded, same⟩ := map_eq_ok.mp applied
    cases same
    exact recorded.of_fewer (shed_fewer shedded)
  | clear =>
    cases applied
    exact ⟨nodup_nil, nofun⟩
  | expire now =>
    obtain ⟨cache, expired, same⟩ := map_eq_ok.mp applied
    cases same
    exact recorded.of_fewer (expire_fewer expired)

lemma runLogged_recorded [Snapshot S] {budget : Nat} {ops : List (Op S E)} {log : List (Stored S)}
    (ran : runLogged budget ops = .ok (cache, log)) : Recorded log cache := by
  suffices general : ∀ (ops : List (Op S E))
      (state after : PrefixCache S × List (Stored S)), ops.foldlM Op.applyLogged state = .ok after →
      Recorded state.2 state.1 → Recorded after.2 after.1 from
    general ops _ _ ran ⟨nodup_nil, nofun⟩
  intro ops
  induction ops with
  | nil =>
    intro state after folded recorded
    cases folded
    exact recorded
  | cons op rest ih =>
    intro state after folded recorded
    rw [foldlM_cons] at folded
    obtain ⟨middle, applied, folded⟩ := bind_eq_ok.mp folded
    exact ih middle after folded (Op.applyLogged_recorded applied recorded)

/-! ## Hits -/

lemma Entry.matchesPrompt_iff : entry.matchesPrompt now prompt scope = true ↔
      entry.key = (scope, prompt.take entry.tokens.length) ∧ entry.liveAt now = true ∧
        entry.tokens.length < prompt.length := by
  simp only [matchesPrompt, Bool.and_eq_true, beq_iff_eq, decide_eq_true_eq,
    isPrefixOf_iff_prefix, prefix_iff_eq_take, key, Prod.mk.injEq]
  tauto

/-- After any calls, a lookup that hits returns the snapshot last stored under
its own scope and the tokens it resumes from (a copy of it for a root); no
live entry of the scope is a longer strict prefix of the prompt; a parked
entry is gone afterwards and a root stays until its lease has run out. -/
theorem hit_from_latest_insert [Snapshot S] (budget : Nat) (ops : List (Op S E))
    (cache after : PrefixCache S) (log : List (Stored S))
    (ran : runLogged budget ops = .ok (cache, log)) (clock : Nat → Instant) (prompt : List Token)
    (scope : Option Scope) (duplicate : S → Except E S) (hit : Hit S)
    (taken : takeScoped clock prompt scope duplicate cache = .ok (.ok (some hit), after)) :
    hit.len < prompt.length ∧
    (∃ snap, latest log (scope, prompt.take hit.len) = some snap ∧
      (if hit.root then duplicate snap = .ok hit.snap
        else hit.snap = snap)) ∧
    (∀ (index : Nat) (other : Entry S), cache.entries[index]? = some other →
      other.scope = scope → other.liveAt (clock index) = true →
      other.tokens <+: prompt → other.tokens.length < prompt.length →
      other.tokens.length ≤ hit.len) ∧
    (hit.root = false → ∀ entry ∈ after.entries, entry.key ≠ (scope, prompt.take hit.len)) ∧
    (hit.root = true → ∃ entry ∈ after.entries, entry.root = true ∧
      entry.key = (scope, prompt.take hit.len) ∧
      latest log (scope, prompt.take hit.len) = some entry.snap ∧
      ∀ now, scope = none ∨ now < clock cache.entries.length + ttl → entry.liveAt now = true) := by
  have recorded := runLogged_recorded ran
  have longest : ∀ {entry : Entry S} {position : Nat},
      best clock prompt scope cache = some (entry, position) →
      ∀ (index : Nat) (other : Entry S), cache.entries[index]? = some other →
        other.scope = scope → other.liveAt (clock index) = true →
        other.tokens <+: prompt → other.tokens.length < prompt.length →
        other.tokens.length ≤ entry.tokens.length := by
    intro entry position found index other held same live starts shorter
    refine best_longest found held (Entry.matchesPrompt_iff.mpr ⟨?_, live, shorter⟩)
    rw [Entry.key, same, ← prefix_iff_eq_take.mp starts]
  cases takeScoped_takes taken with
  | @parked _ entry index found kind removed =>
    obtain ⟨position, matched⟩ := best_found found
    obtain ⟨key, _, shorter⟩ := Entry.matchesPrompt_iff.mp matched
    refine ⟨shorter, ⟨entry.snap, ?_, rfl⟩, longest found, ?_,
      fun impossible => by cases impossible⟩
    · rw [← key]
      exact recorded.latest_eq entry (mem_of_getElem? position)
    · intro _ other held same
      have nodup := (removed.map Entry.key).nodup_iff.mpr recorded.keys_nodup
      rw [map_cons, nodup_cons, key, ← same] at nodup
      exact nodup.1 (mem_map_of_mem held)
  | @root _ entry index now _ found kind entries copied =>
    obtain ⟨position, matched⟩ := best_found found
    obtain ⟨key, _, shorter⟩ := Entry.matchesPrompt_iff.mp matched
    have stored := recorded.latest_eq entry (mem_of_getElem? position)
    obtain ⟨snap, same, shape⟩ := map_eq_ok.mp copied.symm
    cases shape
    rw [key] at stored
    refine ⟨shorter, ⟨entry.snap, stored, same⟩, longest found,
      (fun impossible => by cases impossible), fun _ => ?_⟩
    obtain ⟨inside, _⟩ := List.getElem?_eq_some_iff.mp position
    refine ⟨{ entry with
        lastUsed := now
        expires := scope.map fun _ => clock cache.entries.length + ttl },
      ?_, kind, key, stored, ?_⟩
    · rw [entries]
      exact mem_set inside _
    · intro later time
      cases scope with
      | none => rfl
      | some tenant =>
        have early := time.resolve_left fun impossible => by cases impossible
        simpa [Entry.liveAt] using early

/-- A root is stored and looked up with one token more. -/
theorem hit_from_latest_insert_of_root : runLogged 1 [storeRoot] =
        .ok (hitRoot 0, [⟨none, [1], (1 : UInt64)⟩]) ∧
      takeScoped (fun _ => 0) [1, 2] none (Except.ok : UInt64 → Except Unit UInt64) (hitRoot 0) =
        .ok (.ok (some ⟨1, 1, true⟩), hitRoot 1) ∧
      ∃ entry ∈ (hitRoot 1).entries, entry.root = true ∧ entry.key = (none, [1]) := by
  have ran : runLogged 1 [storeRoot] = .ok (hitRoot 0, [⟨none, [1], (1 : UInt64)⟩]) := by
    rw [runLogged, foldlM_cons, storeRoot, Op.applyLogged, storeRoot_inserts]
    rfl
  have taken : takeScoped (fun _ => 0) [1, 2] none (Except.ok : UInt64 →
      Except Unit UInt64) (hitRoot 0) =
      .ok (.ok (some ⟨1, 1, true⟩), hitRoot 1) := by
    rfl
  have facts := hit_from_latest_insert 1 [storeRoot] (hitRoot 0) (hitRoot 1)
    _ ran (fun _ => 0) [1, 2] none Except.ok ⟨1, 1, true⟩ taken
  obtain ⟨entry, held, root, key, _⟩ := facts.2.2.2.2 rfl
  exact ⟨ran, taken, entry, held, root, key⟩

end Joshua.PrefixCache
