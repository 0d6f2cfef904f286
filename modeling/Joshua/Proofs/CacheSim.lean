/-
Module: Joshua.Proofs.CacheSim
Purpose: Belady's policy as the ceiling of demand caching: where every lookup
  loads what it misses it has the most hits, and each hit under LRU is one of
  its hits; with prefills that load nothing, or a hot set that is refreshed, a
  trace can have more.
Trusted boundary: none
-/
import Joshua.Foundation.DemandCaching
import Joshua.Model.CacheSim

namespace Joshua.CacheSim
open Joshua.Foundation List
open Function (update update_of_ne update_self)

/-- Distinct residents, with their next uses, within the slots. -/
structure Tracks (slots : Nat) (seen : Key → WithTop Nat) (resident : Residents) : Prop where
  distinct : (resident.map Prod.fst).Nodup
  uses : ∀ entry ∈ resident, entry.2 = seen entry.1
  fits : resident.length ≤ slots

section
variable {slots i span : Nat} {key : Key} {seen : Key → WithTop Nat} {resident kept : Residents}
  {rest : List (Key × Event)}

/-- The next use of a key says how far ahead the requests ask for it. -/
lemma nextUses_lt_iff (visits : ∀ entry ∈ rest, entry.2.isVisit = true) :
    (nextUses i rest).1 key < WithTop.some (i + span) ↔ key ∈ (rest.map Prod.fst).take span := by
  induction rest generalizing i span with
  | nil => simp [nextUses]
  | cons head rest ih =>
    obtain ⟨first, visits⟩ := forall_mem_cons.mp visits
    have ih := fun span => @ih (i + 1) span visits
    simp only [nextUses, first, if_true, map_cons]
    by_cases same : key = head.1
    · subst same
      rw [update_self]
      cases span with
      | zero => exact iff_of_false (lt_irrefl _) not_mem_nil
      | succ => exact iff_of_true (WithTop.coe_lt_coe.mpr (by omega)) mem_cons_self
    · rw [update_of_ne same]
      cases span with
      | zero =>
        have late := (ih 0).not.mpr (by simp)
        simp only [take_zero, not_mem_nil, iff_false]
        exact fun early => late (early.trans (WithTop.coe_lt_coe.mpr i.lt_succ_self))
      | succ span => rw [← Nat.add_assoc, Nat.add_right_comm, ih, take_succ_cons, mem_cons,
          or_iff_right same]

lemma Tracks.pass (tracks : Tracks slots (update seen key (.some i)) resident)
    (sub : kept <+ resident) (miss : key ∉ kept.map Prod.fst) : Tracks slots seen kept := by
  refine ⟨tracks.distinct.sublist (sub.map _), fun entry mem => ?_, sub.length_le.trans tracks.fits⟩
  rw [tracks.uses entry (sub.subset mem), update_of_ne]
  rintro rfl
  exact miss (mem_map_of_mem mem)

lemma toFinset_without : ((resident.filter (·.1 ≠ key)).map Prod.fst).toFinset =
    (resident.map Prod.fst).toFinset.erase key := by
  ext x
  simp [and_comm]

lemma length_without (held : key ∈ resident.map Prod.fst) :
    (resident.filter (·.1 ≠ key)).length < resident.length := by
  obtain ⟨entry, mem, rfl⟩ := mem_map.mp held
  exact length_filter_lt_length_iff_exists.mpr ⟨entry, mem, by simp⟩

lemma Tracks.load (tracks : Tracks slots seen kept) (miss : key ∉ kept.map Prod.fst)
    (room : kept.length < slots) : Tracks slots seen ((key, seen key) :: kept) :=
  ⟨nodup_cons.mpr ⟨miss, tracks.distinct⟩, forall_mem_cons.mpr ⟨rfl, tracks.uses⟩, room⟩

/-- The victim is used last. -/
lemma Tracks.farthest (tracks : Tracks slots seen resident) {victim entry : Key × WithTop Nat}
    (found : maxByKey? (fun entry => toLex (entry.2, entry.1)) resident = some victim)
    (inside : entry ∈ resident) : seen entry.1 ≤ seen victim.1 := by
  rw [← tracks.uses _ inside, ← tracks.uses _ (maxByKey?_mem found)]
  exact Prod.Lex.monotone_fst _ _ (maxByKey?_ge found inside)

lemma Tracks.replace {victim : Key} (tracks : Tracks slots (update seen key (.some i)) resident)
    (held : victim ∈ resident.map Prod.fst)
    (miss : key ∉ (resident.filter (·.1 ≠ victim)).map Prod.fst) :
    Tracks slots seen ((key, seen key) :: resident.filter (·.1 ≠ victim)) :=
  (tracks.pass filter_sublist miss).load miss ((length_without held).trans_le tracks.fits)

lemma Tracks.step {event : Event} (tracks : Tracks slots (update seen key (.some i)) resident) :
    Tracks slots seen (beladyStep slots resident (key, event, seen key)) := by
  rw [beladyStep]
  by_cases held : key ∈ resident.map Prod.fst
  · rw [if_pos held]
    exact tracks.replace held (by simp)
  · have passed := tracks.pass (Sublist.refl _) held
    rw [if_neg held]
    split_ifs with idle full
    · exact passed
    · split
      next => exact passed
      next victim found =>
        exact tracks.replace (mem_map_of_mem (maxByKey?_mem found)) fun again =>
          held ((filter_sublist.map _).subset again)
    · exact passed.load held (not_le.mp full)

/-- Over decode lookups Belady's replay gives up what is farthest. -/
lemma belady_farthest (decodes : ∀ entry ∈ rest, entry.2 = .visit true true)
    (tracks : Tracks slots (nextUses i rest).1 resident) :
    Farthest slots (resident.map Prod.fst).toFinset (rest.map Prod.fst)
      (beladyReplay slots (nextUses i rest).2 resident).decodeHits := by
  induction rest generalizing i resident with
  | nil => exact .nil
  | cons head rest ih =>
    obtain ⟨key, event⟩ := head
    obtain ⟨first, others⟩ := forall_mem_cons.mp decodes
    obtain rfl : event = .visit true true := first
    have ih := fun resident => @ih (i + 1) resident others
    have soon := fun key span =>
      @nextUses_lt_iff (i + 1) span key rest fun entry mem => others entry mem ▸ rfl
    simp only [nextUses, Event.isVisit, if_true] at tracks
    simp only [nextUses, map_cons]
    generalize nextUses (i + 1) rest = scan at *
    obtain ⟨seen, uses⟩ := scan
    dsimp only at tracks soon ih
    rw [beladyReplay, replay, ← beladyReplay, Report.count]
    have after := ih _ (@Tracks.step slots i key seen resident (.visit true true) tracks)
    generalize made : beladyStep slots resident (key, .visit true true, seen key) = kept at after ⊢
    rw [beladyStep] at made
    by_cases held : key ∈ resident.map Prod.fst
    · rw [if_pos held] at made
      rw [← made, map_cons, toFinset_cons, toFinset_without,
        Finset.insert_erase (mem_toFinset.mpr held), made] at after
      simpa only [held, decide_true, Bool.toNat_true] using
        Farthest.hit (mem_toFinset.mpr held) after
    · have miss := mt mem_toFinset.mp held
      have passed := tracks.pass (Sublist.refl _) held
      simp only [held, decide_false, Bool.toNat_false, Nat.add_zero]
      rw [if_neg held] at made
      refine .miss miss ?_ after
      split_ifs at made with idle full
      · subst made
        rcases (by simpa [Event.inserts] using idle : slots = 0 ∨ seen key = ⊤) with rfl | never
        · exact fun _ => .inr (Nat.zero_le _)
        · apply Loads.bypass
          intro again
          have early := (soon key rest.length).mpr (by rwa [take_of_length_le (length_map _).le])
          exact not_top_lt (never ▸ early)
      · cases found : maxByKey? (fun entry => toLex (entry.2, entry.1)) resident with
        | none =>
          rw [maxByKey?_eq_none.mp found] at full
          simp_all [Event.inserts]
        | some victim =>
          have mem := mem_map_of_mem (f := Prod.fst) (maxByKey?_mem found)
          rw [found] at made
          rw [← made, map_cons, toFinset_cons, toFinset_without]
          refine .evict miss ?_ (mem_toFinset.mpr mem) ?_
          · rwa [toFinset_card_of_nodup tracks.distinct, length_map]
          · intro span early x cached
            obtain ⟨entry, inside, rfl⟩ := mem_map.mp (mem_toFinset.mp cached)
            rw [← soon] at early ⊢
            exact (passed.farthest found inside).trans_lt early
      · rw [← made, map_cons, toFinset_cons]
        exact .fill miss

end

/-! ## LRU -/

/-- The lookups among the turns. -/
def looks (list : List Turn) : List (Key × Event) :=
  list.filterMap fun
    | .look key event => some (key, event)
    | _ => none

/-- The decode steps among the turns. -/
def begins (list : List Turn) : Nat :=
  list.countP fun
    | .beginDecode => true
    | _ => false

lemma begins_cons (rest : List Turn) : begins (.beginDecode :: rest) = begins rest + 1 :=
  countP_cons_of_pos rfl

/-- Hits of each phase, compared. -/
def Report.AtMost (left right : Report) : Prop :=
  left.decodeHits ≤ right.decodeHits ∧ left.prefillHits ≤ right.prefillHits

/-- Where LRU holds a key that Belady's policy does not, the keys used since
and those that come before its next use fill the slots. -/
def Shadowed (slots : Nat) (order resident rest : List Key) : Prop :=
  ∀ key ∈ order, ∀ soon later, rest = soon ++ key :: later → key ∉ resident →
    ∃ filler : Finset Key, slots ≤ filler.card ∧ ∀ x ∈ filler, [key, x] <+ order ∨ x ∈ soon

/-- A key becomes the newest; of the others some stay, with those after
them. -/
def Moves (key : Key) (order order' : List Key) : Prop :=
  ∀ x ∈ order', x ≠ key → x ∈ order ∧ [x, key] <+ order' ∧
    ∀ y, [x, y] <+ order → y ≠ key → [x, y] <+ order'

section
variable {slots i j budget : Nat} {key : Key} {order order' : List Key} {rest : List (Key × Event)}
  {seen : Key → WithTop Nat} {resident : Residents} {event : Event} {left right : Report}

lemma Report.AtMost.count (most : left.AtMost right) {hit hit' : Bool}
    (implies : hit = true → hit' = true) (event : Event) :
    (left.count hit event).AtMost (right.count hit' event) := by
  obtain ⟨decode, prefill⟩ := most
  have le : hit.toNat ≤ hit'.toNat := by
    cases hit
    · exact Nat.zero_le _
    · rw [implies rfl]
  rcases event with ⟨_ | _, _⟩ | _
  · exact ⟨decode, Nat.add_le_add prefill le⟩
  · exact ⟨Nat.add_le_add decode le, prefill⟩
  · exact ⟨decode, prefill⟩

lemma moves_append {kept : List Key} (sub : kept <+ order)
    (keeps : ∀ x ∈ kept, x ≠ key → ∀ y, [x, y] <+ order → y ≠ key → [x, y] <+ kept) :
    Moves key order (kept ++ [key]) := by
  intro x inside different
  have inside : x ∈ kept := by simpa [different] using inside
  refine ⟨sub.subset inside, (singleton_sublist.mpr inside).append (Sublist.refl [key]),
    fun y after other => ?_⟩
  exact (keeps x inside different y after other).trans (sublist_append_left ..)

/-- Without a hot set, the oldest key makes room. -/
lemma lruInsert_moves (nodup : order.Nodup) (fits : order.length ≤ slots)
    (made : lruInsert slots [] order key = order') :
    Moves key order order' ∧ order'.Nodup ∧ order'.length ≤ slots := by
  -- whatever stays is followed by the key
  have load : ∀ kept, kept <+ order → key ∉ kept → kept.length < slots →
      (∀ x ∈ kept, x ≠ key → ∀ y, [x, y] <+ order → y ≠ key → [x, y] <+ kept) →
      Moves key order (kept ++ [key]) ∧ (kept ++ [key]).Nodup ∧ (kept ++ [key]).length ≤ slots := by
    intro kept sub new room keeps
    refine ⟨moves_append sub keeps, nodup_append_comm.mp ?_, by simpa [Nat.succ_le_iff] using room⟩
    exact nodup_cons.mpr ⟨new, nodup.sublist sub⟩
  subst made
  rw [lruInsert]
  split_ifs with held empty full
  · refine load _ erase_sublist nodup.not_mem_erase ?_ ?_
    · have length := length_erase_add_one held
      omega
    · intro x _ different y after other
      have pair := after.erase key
      rwa [erase_of_not_mem (by simp [different.symm, other.symm])] at pair
  · rw [empty, Nat.le_zero, length_eq_zero_iff] at fits
    subst fits
    exact ⟨by simp [Moves], nodup, Nat.zero_le _⟩
  · cases order with
    | nil => exact absurd (Nat.le_zero.mp full) empty
    | cons oldest others =>
      simp only [find?_cons, not_mem_nil, not_false_eq_true, decide_true, erase_cons_head]
      refine load others (sublist_cons_self ..) (fun again => held (mem_cons_of_mem _ again))
        (by simpa [Nat.succ_le_iff] using fits) ?_
      intro x inside _ y after _
      refine (cons_sublist_cons'.mp after).resolve_right fun first => ?_
      exact (nodup_cons.mp nodup).1 (first.1 ▸ inside)
  · exact load order (Sublist.refl _) held (not_le.mp full) fun _ _ _ _ after _ => after

/-- What a lookup does to Belady's residents. -/
lemma beladyStep_residents (slots : Nat) (resident : Residents) (key : Key) (next : WithTop Nat)
    (inserts : event.inserts = true) (x : Key) :
    (key ∈ (beladyStep slots resident (key, event, next)).map Prod.fst ∨ slots = 0 ∨ next = ⊤) ∧
    (x ∈ resident.map Prod.fst → x ∉ (beladyStep slots resident (key, event, next)).map Prod.fst →
      slots ≤ resident.length ∧ key ∉ resident.map Prod.fst ∧
        ∃ use, maxByKey? (fun entry => toLex (entry.2, entry.1)) resident = some (x, use)) := by
  have others {kept : Key} (cached : x ∈ resident.map Prod.fst) (different : x ≠ kept) :
      x ∈ ((key, next) :: resident.filter (·.1 ≠ kept)).map Prod.fst := by
    obtain ⟨entry, mem, rfl⟩ := mem_map.mp cached
    exact mem_cons_of_mem _ (mem_map_of_mem (mem_filter.mpr ⟨mem, by simpa using different⟩))
  rw [beladyStep, inserts]
  split_ifs with held idle full
  · refine ⟨.inl mem_cons_self, fun cached gone => absurd (others cached ?_) gone⟩
    rintro rfl
    exact gone mem_cons_self
  · exact ⟨.inr (by simpa using idle), fun cached gone => absurd cached gone⟩
  · split
    next missing =>
      rw [maxByKey?_eq_none.mp missing] at full
      simp_all
    next victim found =>
      refine ⟨.inl mem_cons_self, fun cached gone => ⟨full, held, victim.2, ?_⟩⟩
      rw [found]
      by_contra different
      exact gone (others cached fun same => different (by rw [same]))
  · refine ⟨.inl mem_cons_self, fun cached gone => absurd (mem_cons_of_mem _ cached) gone⟩

/-- A hit under LRU is a hit under Belady's policy. -/
lemma Shadowed.hit
    (shadowed : Shadowed slots order (resident.map Prod.fst) (key :: rest.map Prod.fst))
    (nodup : order.Nodup) (fits : order.length ≤ slots) (held : key ∈ order) :
    key ∈ resident.map Prod.fst := by
  by_contra missed
  obtain ⟨filler, full, after⟩ := shadowed key held [] _ rfl missed
  have inside : filler ⊆ order.toFinset.erase key := by
    intro x mem
    have pair := (after x mem).resolve_right not_mem_nil
    have different := nodup_cons.mp (nodup.sublist pair)
    refine Finset.mem_erase.mpr ⟨fun same => different.1 (by simp [same]), mem_toFinset.mpr ?_⟩
    exact pair.subset (by simp)
  have card := (Finset.card_le_card inside).trans_lt
    (Finset.card_erase_lt_of_mem (mem_toFinset.mpr held))
  rw [toFinset_card_of_nodup nodup] at card
  omega

lemma Shadowed.step (inserts : event.inserts = true)
    (soon : ∀ key span, seen key < WithTop.some (i + span) ↔ key ∈ (rest.map Prod.fst).take span)
    (tracks : Tracks slots (update seen key (.some j)) resident) (moves : Moves key order order')
    (shadowed : Shadowed slots order (resident.map Prod.fst) (key :: rest.map Prod.fst)) :
    Shadowed slots order' ((beladyStep slots resident (key, event, seen key)).map Prod.fst)
      (rest.map Prod.fst) := by
  intro x inside before later split missed
  have ahead (y : Key) : seen y < WithTop.some (i + (before.length + 1)) ↔ y ∈ before ++ [x] := by
    rw [soon, split, take_append, take_of_length_le (by omega)]
    simp
  obtain ⟨loaded, evicted⟩ := beladyStep_residents slots resident key (seen key) inserts x
  by_cases same : x = key
  · subst same
    rcases loaded with held | empty | never
    · exact absurd held missed
    · exact ⟨∅, empty.le, by simp⟩
    · exact absurd ((ahead x).mpr (by simp)) (never ▸ not_top_lt)
  · obtain ⟨old, newest, kept⟩ := moves x inside same
    by_cases cached : x ∈ resident.map Prod.fst
    · -- the victim: every other resident comes before it
      obtain ⟨full, miss, use, victim⟩ := evicted cached missed
      refine ⟨insert key ((resident.map Prod.fst).toFinset.erase x), ?_, ?_⟩
      · rw [Finset.card_insert_of_notMem (by simp [miss]),
          Finset.card_erase_of_mem (mem_toFinset.mpr cached),
          toFinset_card_of_nodup tracks.distinct, length_map]
        omega
      · intro y mem
        rcases Finset.mem_insert.mp mem with rfl | mem
        · exact .inl newest
        · obtain ⟨different, mem⟩ := Finset.mem_erase.mp mem
          obtain ⟨entry, resides, rfl⟩ := mem_map.mp (mem_toFinset.mp mem)
          have order := (tracks.pass (Sublist.refl _) miss).farthest victim resides
          have early := (ahead entry.1).mp (order.trans_lt ((ahead x).mpr (by simp)))
          exact .inr (by simpa [different] using early)
    · obtain ⟨filler, full, after⟩ :=
        shadowed x old (key :: before) later (congrArg (key :: ·) split) cached
      refine ⟨filler, full, fun y mem => ?_⟩
      by_cases first : y = key
      · exact .inl (first ▸ newest)
      · refine (after y mem).imp (fun pair => kept y pair first) fun near => ?_
        exact (mem_cons.mp near).resolve_left first

lemma recordKeys_step (keys : List Key) (hot : HotSet) :
    (keys.foldl HotSet.recordKey hot).step = hot.step := by
  induction keys generalizing hot with
  | nil => rfl
  | cons key keys ih =>
    rw [foldl_cons, ih, HotSet.recordKey]
    split <;> rfl

/-- Until a refresh is due, every hit under LRU is a hit under Belady's
policy. -/
lemma simulateLru_atMost {list : List Turn} {tier : Tier}
    (loads : ∀ entry ∈ looks list, entry.2.isVisit = true ∧ entry.2.inserts = true)
    (plain : tier.hot = []) (quiet : budget = 0 ∨ tier.counters.step + begins list < refreshSteps)
    (nodup : tier.order.Nodup) (fits : tier.order.length ≤ slots)
    (tracks : Tracks slots (nextUses i (looks list)).1 resident)
    (shadowed : Shadowed slots tier.order (resident.map Prod.fst) ((looks list).map Prod.fst)) :
    (simulateLru slots budget list tier).AtMost
      (beladyReplay slots (nextUses i (looks list)).2 resident) := by
  induction list generalizing tier resident i with
  | nil => exact ⟨le_rfl, le_rfl⟩
  | cons turn rest ih =>
    cases turn with
    | beginDecode =>
      have idle : ¬ (0 < budget ∧ refreshSteps ∣ tier.counters.step + 1) := by
        rintro ⟨positive, due⟩
        have := Nat.le_of_dvd (Nat.succ_pos _) due
        rw [begins_cons] at quiet
        omega
      have step : Tier.step slots budget tier .beginDecode =
          { tier with counters := { tier.counters with step := tier.counters.step + 1 } } :=
        if_neg idle
      have after := @ih i resident
        { tier with counters := { tier.counters with step := tier.counters.step + 1 } } loads plain
        (quiet.imp_right fun few => by rw [begins_cons] at few; dsimp; omega) nodup fits tracks
        shadowed
      rw [← step] at after
      exact after
    | record keys =>
      exact @ih i resident (Tier.step slots budget tier (.record keys)) loads plain
        (quiet.imp_right fun few => (recordKeys_step keys _).symm ▸ few) nodup fits tracks shadowed
    | look key event =>
      obtain ⟨⟨visit, inserts⟩, loads⟩ := forall_mem_cons.mp loads
      have soon := fun key span =>
        @nextUses_lt_iff (i + 1) span key (looks rest) fun entry mem => (loads entry mem).1
      have here : looks (.look key event :: rest) = (key, event) :: looks rest := rfl
      simp only [here, nextUses, visit, if_true] at tracks shadowed ⊢
      have ih := fun tier resident => @ih (i + 1) resident tier loads
      generalize nextUses (i + 1) (looks rest) = scan at *
      obtain ⟨seen, uses⟩ := scan
      have step : Tier.step slots budget tier (.look key event) =
        { tier with order := lruInsert slots [] tier.order key } := by
        rw [Tier.step, if_pos (.inr inserts), plain]
      obtain ⟨moves, nodup', fits'⟩ := lruInsert_moves nodup fits rfl
      refine Report.AtMost.count ?_ (fun hit => ?_) event
      · rw [step]
        exact ih _ _ plain quiet nodup' fits' tracks.step (shadowed.step inserts soon tracks moves)
      · exact decide_eq_true (shadowed.hit nodup fits (of_decide_eq_true hit))

end

/-- The turns of a call look up its events and begin at most one step. -/
lemma looks_turns (prefillInserts : Bool) (call : Call) :
    looks (turns prefillInserts call) = events prefillInserts call ∧
      begins (turns prefillInserts call) = if call.phase = .decode then 1 else 0 := by
  rw [looks, begins, turns, events]
  cases call.phase <;> simp [Function.comp_def]

lemma looks_trace (prefillInserts : Bool) (trace : List Call) :
    looks (trace.flatMap (turns prefillInserts)) = trace.flatMap (events prefillInserts) ∧
      begins (trace.flatMap (turns prefillInserts)) = trace.countP (·.phase = .decode) := by
  induction trace with
  | nil => exact ⟨rfl, rfl⟩
  | cons call rest ih =>
    obtain ⟨looking, beginning⟩ := looks_turns prefillInserts call
    rw [looks, begins] at *
    simp [looking, beginning, ih, countP_cons, Nat.add_comm]

/-- Every lookup of the trace loads what it misses. -/
def Loading (trace : List Call) (cfg : Config) : Prop :=
  cfg.prefillInserts = true ∨ ∀ call ∈ trace, call.phase = .decode

lemma Loading.events {trace : List Call} {cfg : Config} (loading : Loading trace cfg) {call : Call}
    (mem : call ∈ trace) : events cfg.prefillInserts call =
      (lookups call).flatten.map (·, .visit (call.phase = .decode) true) := by
  rw [CacheSim.events, visits, seeds]
  rcases loading with on | decodes
  · simp [on]
  · simp [decodes call mem]

/-- Belady's replay starts with nothing. -/
lemma tracks_nil (slots : Nat) (seen : Key → WithTop Nat) : Tracks slots seen [] :=
  ⟨nodup_nil, by simp, Nat.zero_le _⟩

lemma simulate_atMost {trace : List Call} {cfg : Config} (loading : Loading trace cfg)
    {budget : Nat} (quiet : budget = 0 ∨ trace.countP (·.phase = .decode) < refreshSteps) :
    (simulateLru cfg.slots budget (trace.flatMap (turns cfg.prefillInserts)) {}).AtMost
      (simulate trace .belady cfg) := by
  obtain ⟨looking, beginning⟩ := looks_trace cfg.prefillInserts trace
  rw [simulate, ← looking]
  refine simulateLru_atMost ?_ rfl ?_ nodup_nil (Nat.zero_le _) (tracks_nil ..) ?_
  · intro entry mem
    rw [looking] at mem
    obtain ⟨call, mem, inside⟩ := mem_flatMap.mp mem
    rw [loading.events mem] at inside
    obtain ⟨key, _, rfl⟩ := mem_map.mp inside
    exact ⟨rfl, rfl⟩
  · rw [beginning, Nat.zero_add]
    exact quiet
  · exact nofun

/-- On decode calls alone, no demand policy has more hits than Belady's, the
replay under LRU included. -/
theorem belady_ceiling (trace : List Call) (cfg : Config)
    (decodes : ∀ call ∈ trace, call.phase = .decode) :
    (∀ hits, Demand cfg.slots ∅ (trace.flatMap fun call => (lookups call).flatten) hits →
      hits ≤ (simulate trace .belady cfg).decodeHits) ∧
    (simulate trace .lru cfg).decodeHits ≤ (simulate trace .belady cfg).decodeHits := by
  have loading : Loading trace cfg := .inr decodes
  refine ⟨fun hits demand => ?_, (simulate_atMost loading (.inl rfl)).1⟩
  have keys : (trace.flatMap (events cfg.prefillInserts)).map Prod.fst =
      trace.flatMap fun call => (lookups call).flatten := by
    rw [map_flatMap]
    apply flatMap_congr
    intro call mem
    rw [loading.events mem, map_map]
    exact map_id _
  rw [← keys] at demand
  refine demand.le_of_farthest (belady_farthest (fun entry mem => ?_) (tracks_nil ..))
  obtain ⟨call, mem, inside⟩ := mem_flatMap.mp mem
  rw [loading.events mem, decodes call mem] at inside
  obtain ⟨key, _, rfl⟩ := mem_map.mp inside
  rfl

/-- A decode call that looks up one expert. -/
def decodeOf (expert : Nat) : Call := ⟨.decode, [[⟨0, 0, expert⟩]]⟩

/-- With two slots for three experts LRU gives up the one that is used next,
and Belady's policy the one that is used last. -/
theorem belady_ceiling_of_three : let trace := [0, 1, 2, 0, 2, 1].map decodeOf
    (simulate trace .lru ⟨2, false⟩).decodeHits = 1 ∧
    (simulate trace .belady ⟨2, false⟩).decodeHits = 2 ∧
    ∀ hits, Demand 2 ∅ (trace.flatMap fun call => (lookups call).flatten) hits → hits ≤ 2 := by
  have most := (belady_ceiling ([0, 1, 2, 0, 2, 1].map decodeOf) ⟨2, false⟩ (by decide)).1
  have two : (simulate ([0, 1, 2, 0, 2, 1].map decodeOf) .belady ⟨2, false⟩).decodeHits = 2 := by
    decide +kernel
  rw [two] at most
  exact ⟨by decide +kernel, two, most⟩

/-- Where every lookup loads what it misses, Belady's policy has as many hits
as LRU, counted on decode lookups and on prefill lookups, and as many as LRU
with a hot set that is never refreshed. -/
theorem belady_ceiling_where_loading (trace : List Call) (cfg : Config)
    (loading : cfg.prefillInserts = true ∨ ∀ call ∈ trace, call.phase = .decode) :
    (simulate trace .lru cfg).AtMost (simulate trace .belady cfg) ∧
    ∀ share, hotBudget cfg share = 0 ∨ trace.countP (·.phase = .decode) < refreshSteps →
      (simulate trace (.lruHot share) cfg).AtMost (simulate trace .belady cfg) :=
  ⟨simulate_atMost loading (.inl rfl), fun _ quiet => simulate_atMost loading quiet⟩

/-- A prefill that loads two experts, and decode calls after it. -/
theorem belady_ceiling_where_loading_of_prefill :
    let trace := ⟨.prefill, [[⟨0, 0, 0⟩, ⟨0, 1, 1⟩]]⟩ :: [2, 0, 1].map decodeOf
    (simulate trace .lru ⟨2, true⟩).decodeHits = 0 ∧
    (simulate trace .belady ⟨2, true⟩).decodeHits = 2 ∧
    (simulate trace .lru ⟨2, true⟩).AtMost (simulate trace .belady ⟨2, true⟩) ∧
    (simulate trace (.lruHot (3, 4)) ⟨2, true⟩).AtMost (simulate trace .belady ⟨2, true⟩) := by
  intro trace
  obtain ⟨lru, hot⟩ := belady_ceiling_where_loading trace ⟨2, true⟩ (.inl rfl)
  exact ⟨by decide +kernel, by decide +kernel, lru, hot (3, 4) (.inr (by decide))⟩

/-- Two ways past the ceiling.  Belady's policy keeps an expert for the sake of
a prefill that loads nothing, LRU the one that is decoded later; and a refresh
loads the hot expert without a lookup and refuses the other one. -/
theorem loader_exceeds_belady :
    (∃ trace, (simulate trace .belady ⟨2, false⟩).decodeHits <
      (simulate trace .lru ⟨2, false⟩).decodeHits) ∧
    ∀ prefillInserts, ∃ trace, (∀ call ∈ trace, call.phase = .decode) ∧
      (simulate trace .belady ⟨1, prefillInserts⟩).decodeHits <
        (simulate trace (.lruHot (1, 1)) ⟨1, prefillInserts⟩).decodeHits := by
  refine ⟨⟨[0, 2, 1].map decodeOf ++ [⟨.prefill, [[⟨0, 0, 0⟩, ⟨0, 1, 1⟩]]⟩, decodeOf 2], ?_⟩,
    fun prefillInserts => ⟨(replicate 62 0 ++ [1, 0, 1, 0]).map decodeOf, ?_, ?_⟩⟩
  · decide +kernel
  · intro call mem
    obtain ⟨expert, _, rfl⟩ := mem_map.mp mem
    rfl
  · cases prefillInserts <;> decide +kernel

end Joshua.CacheSim
