/-
Module: Joshua.Proofs.UdpReduceSafety
Purpose: A rank that returns from a call has the sum of what all ranks called
  with, and all ranks had gathered it; a rank whose call fails keeps its
  values and never calls again.  The receive buffer holds the chunks that came.
Trusted boundary: none
-/
import Joshua.Foundation.Collections
import Joshua.Proofs.UdpReduceLoop
import Joshua.Foundation.Lockstep

namespace Joshua.UdpReduce
open Joshua.Foundation List
open Function (update update_self update_of_ne)

variable {ι : Type} {hmac : Bytes → Bytes → Digest} {add : Float32Bits → Float32Bits → Float32Bits}

/-! ## Rounds and calls -/

variable {fixed : ι → Group} {called called' : ι → List (UInt64 × Values)}
  {gathered gathered' : ι → List (UInt64 × Nat × Values)} {i : ι} {group : Group}
  {exchange : Exchange} {clock : Clock} {total : Nat}

section Rounds
variable {after : Exchange} {datagrams sent : List Bytes}

lemma tick_eq_next (ticked : exchange.tick hmac group clock datagrams = .next after sent) :
    ∃ (marked : List (Bytes × Bool)) (fresh : Exchange)
      (justReady : Bool), (∀ datagram ∈ marked, datagram.1 ∈ datagrams) ∧
      fresh = (exchange.receiveAll hmac group marked).1.refresh group ∧
      after = { fresh with sendChunk := (fresh.sendRange clock).1 + (fresh.sendRange clock).2 } ∧
      sent = (exchange.receiveAll hmac group marked).2 ++ fresh.outgoing group clock justReady := by
  rw [Exchange.tick] at ticked
  split_ifs at ticked
  injection ticked with after_eq sent_eq
  refine ⟨_, _, _, fun datagram mem => ?_, rfl, after_eq.symm, sent_eq.symm⟩
  obtain ⟨place, place_lt, rfl⟩ := List.mem_mapIdx.mp mem
  exact mem_of_mem_take (getElem_mem _)

/-- A round of the loop keeps what holds, and what it sends is justified once
a complete set of inputs has been recorded. -/
lemma Active.tick {network : List Bytes} (alike : Alike group (fixed i))
    (messages : ∀ msg ∈ network, ∃ owner, Message (fixed owner) (called owner) (gathered owner) msg)
    (previous : Previous (gathered i) group)
    (active : Active fixed called gathered i group exchange)
    (authentic : ∀ bytes ∈ datagrams, ∀ size,
      (hmac group.psk (bytes.take size)).toList = bytes.drop size → bytes.take size ∈ network)
    (ticked : exchange.tick hmac group clock datagrams = .next after sent) :
    Active fixed called gathered i group after ∧
      after.values = exchange.values ∧
      ∀ record, gathered i ⊆ record →
        (after.remaining = 0 → (group.step, after.values.length, after.inputs) ∈ record) →
        ∀ bytes ∈ sent, Message (fixed i) (called i) record bytes := by
  obtain ⟨marked, fresh, justReady, among, fresh_eq, rfl, rfl⟩ := tick_eq_next ticked
  obtain ⟨received, values, acks⟩ := active.receiveAll alike messages previous
    fun datagram mem => authentic _ (among datagram mem)
  have refreshed := received.refresh
  rw [← fresh_eq] at refreshed
  refine ⟨{ refreshed with
      sendChunk := sendRange_le refreshed.sendChunk }, ?_, ?_⟩
  · rw [fresh_eq]
    exact values
  · intro record more complete bytes mem
    rcases mem_append.mp mem with ack | out
    · exact (acks bytes ack).mono (List.Subset.refl _) more
    · refine refreshed.outgoing alike (fun flag => ?_) clock justReady bytes out
      refine ⟨_, complete ?_⟩
      rw [fresh_eq] at flag ⊢
      exact received.remaining_of_refresh flag

section
variable (more : ∀ j, called j ⊆ called' j) {step : UInt64}
include more

lemma TrueChunk.mono {rank chunk : Nat} {part : Values}
    (chunks : TrueChunk fixed called i step total rank chunk part) :
    TrueChunk fixed called' i step total rank chunk part := by
  obtain ⟨j, values, mem, inside, rest⟩ := chunks
  exact ⟨j, values, mem, more j inside, rest⟩

lemma Gathered.mono {inputs : Values}
    (complete : Gathered fixed called i step total inputs) :
    Gathered fixed called' i step total inputs where
  small := complete.small
  length := complete.length
  own := by
    obtain ⟨values, inside, length⟩ := complete.own
    exact ⟨values, more i inside, length⟩
  chunks := fun rank rank_lt chunk chunk_lt =>
    (complete.chunks rank rank_lt chunk chunk_lt).mono more

end

lemma Active.mono (calledMore : ∀ j, called j ⊆ called' j)
    (gatheredMore : ∀ j, gathered j ⊆ gathered' j)
    (active : Active fixed called gathered i group exchange) :
    Active fixed called' gathered' i group exchange :=
  { active with
    own := calledMore i active.own
    chunks := fun rank rank_lt chunk chunk_lt known =>
      (active.chunks rank rank_lt chunk chunk_lt known).mono calledMore
    others := fun rank rank_ne known => by
      obtain ⟨j, inputs, mem, inside⟩ := active.others rank rank_ne known
      exact ⟨j, inputs, mem, gatheredMore j inside⟩ }

variable {values : Values}

section
variable {after : Group} (begun : group.begin values = .ok (after, exchange))
include begun

lemma begin_eq_ok : group.poisoned = false ∧ values.length ≤ maxTensorElements ∧
      group.step.toNat + 1 < 2 ^ 64 ∧
      after = { group with poisoned := true } ∧
      exchange =
        { values := values
          inputs := splice (group.rank * values.length) values
            (List.replicate (group.peers * values.length) 0)
          seen := List.replicate (group.peers * chunkCount values.length) false
          remaining := (group.peers - 1) * chunkCount values.length
          ready := (List.replicate group.peers false).set group.rank
            ((group.peers - 1) * chunkCount values.length = 0)
          lingering := false
          sendChunk := chunkCount values.length } := by
  rw [Group.begin] at begun
  split_ifs at begun with healthy sizes room
  cases begun
  exact ⟨Bool.eq_false_iff.mpr healthy, sizes.1, room, rfl, rfl⟩

/-- Nothing has been received at the start of a call. -/
lemma begin_missing : exchange.values = values ∧
    exchange.inputs.length = group.peers * values.length ∧
    exchange.seen.length = group.peers * chunkCount values.length ∧
    (∀ slot, exchange.seen.getD slot false = false) ∧
    exchange.remaining = (missing group exchange).card ∧
    slice (group.rank * values.length) values.length exchange.inputs = values := by
  obtain ⟨_, _, _, _, rfl⟩ := begin_eq_ok begun
  have lt : group.rank * values.length + values.length ≤
      (List.replicate (group.peers * values.length) (0 : Float32Bits)).length := by
    rw [length_replicate, ← Nat.succ_mul]
    exact Nat.mul_le_mul_right _ group.member
  have unseen (slot : Nat) : (List.replicate (group.peers *
      chunkCount values.length) false).getD slot false = false := by
    rw [getD_eq_getElem?_getD, List.getElem?_replicate]
    split <;> rfl
  refine ⟨rfl, (length_splice lt).trans length_replicate, length_replicate, unseen, ?_,
    slice_splice_self rfl lt⟩
  rw [missing, Finset.filter_true_of_mem fun slot _ => unseen _, Finset.card_product,
    Finset.card_erase_of_mem (Finset.mem_range.mpr group.member), Finset.card_range,
    Finset.card_range]

/-- What holds at the start of a call. -/
lemma Active.of_begin (own : (group.step, values) ∈ called i) :
    Active fixed called gathered i after exchange := by
  obtain ⟨_, inputs, seen, unseen, remaining, mine⟩ := begin_missing begun
  obtain ⟨_, small, _, rfl, rfl⟩ := begin_eq_ok begun
  exact {
    small := small
    own := own
    inputs := inputs
    seen := seen
    ready := by rw [length_set, length_replicate]
    mine := mine
    chunks := fun rank _ chunk _ known => by
      rw [unseen] at known
      cases known
    remaining := remaining
    others := fun rank rank_ne known => by
      rw [getD_set (by rw [length_replicate]; exact group.member),
        if_neg rank_ne.symm, getD_eq_getElem?_getD, List.getElem?_replicate] at known
      split at known <;> cases known
    lingering := fun lingers => by cases lingers
    sendChunk := le_rfl }

end

end Rounds

/-! ## All ranks -/

/-- What a returned call tells: all ranks of the session called in this step
with vectors of one length, each of them had gathered all these vectors, and
the result is their sum. -/
def Agreed (add : Float32Bits → Float32Bits → Float32Bits)
    (fixed : ι → Group) (called : ι → List (UInt64 × List Float32Bits))
    (gathered : ι → List (UInt64 × Nat × List Float32Bits)) (index : ι)
    (step : UInt64) (result : List Float32Bits) : Prop :=
  ∃ (total : Nat) (members : Fin (fixed index).peers → ι)
    (inputs : Fin (fixed index).peers → List Float32Bits), (∀ rank : Fin (fixed index).peers,
      Member fixed index rank.val (members rank) ∧
      (step, inputs rank) ∈ called (members rank) ∧
      (inputs rank).length = total ∧
      (step, total, allInputs inputs) ∈ gathered (members rank)) ∧
    result = combine 0 add total inputs

/-- No two ranks of a session have one number. -/
def Fresh (fixed : ι → Group) : Prop :=
  ∀ index other, (fixed index).session = (fixed other).session →
    (fixed index).rank = (fixed other).rank → index = other

/-- No rank calls twice in one step. -/
def Once (called : ι → List (UInt64 × List Float32Bits)) : Prop :=
  ∀ index step values values', (step, values) ∈ called index →
    (step, values') ∈ called index → values = values'

/-- What the records of all ranks say. -/
structure Records (add : Float32Bits → Float32Bits → Float32Bits) (fixed : ι → Group)
    (called : ι → List (UInt64 × List Float32Bits))
    (gathered : ι → List (UInt64 × Nat × List Float32Bits)) (network : List (List UInt8))
    (returned : ι → List (UInt64 × List Float32Bits)) : Prop where
  once : Once called
  messages : ∀ message ∈ network, ∃ owner,
    Message (fixed owner) (called owner) (gathered owner) message
  complete : ∀ index step total inputs, (step, total, inputs) ∈ gathered index →
    Gathered fixed called index step total inputs
  agreed : ∀ index step result, (step, result) ∈ returned index →
    Agreed add fixed called gathered index step result

/-- What holds of one rank. -/
structure Rank (fixed : ι → Group) (called : ι → List (UInt64 × List Float32Bits))
    (gathered : ι → List (UInt64 × Nat × List Float32Bits)) (index : ι) (group : Group)
    (call : Option Exchange) (vector : List Float32Bits) :
    Prop where
  alike : Alike group (fixed index)
  upTo : ∀ step values, (step, values) ∈ called index →
    step.toNat ≤ group.step.toNat ∧
    (group.poisoned = false → step.toNat < group.step.toNat)
  previous : Previous (gathered index) group
  active : ∀ exchange, call = some exchange →
    group.poisoned = true ∧ group.step.toNat + 1 < 2 ^ 64 ∧
    vector = exchange.values ∧
    Active fixed called gathered index group exchange ∧
    (exchange.remaining = 0 →
      (group.step, exchange.values.length, exchange.inputs) ∈ gathered index)

section Records
variable {network : List Bytes} {returned : ι → List (UInt64 × Values)}

lemma Agreed.mono (calledMore : ∀ j, called j ⊆ called' j)
    (gatheredMore : ∀ j, gathered j ⊆ gathered' j) {step : UInt64}
    {result : Values} (agreed : Agreed add fixed called gathered i step result) :
    Agreed add fixed called' gathered' i step result := by
  obtain ⟨total, members, inputs, all, result_eq⟩ := agreed
  refine ⟨total, members, inputs, fun rank => ?_, result_eq⟩
  obtain ⟨mem, inside, length, complete⟩ := all rank
  exact ⟨mem, calledMore _ inside, length, gatheredMore _ complete⟩

variable {vector : Values}

lemma Rank.mono {call : Option Exchange} (same : called' i = called i)
    (calledMore : ∀ j, called j ⊆ called' j)
    (gatheredMore : ∀ j, gathered j ⊆ gathered' j)
    (rank : Rank fixed called gathered i group call vector) :
    Rank fixed called' gathered' i group call vector where
  alike := rank.alike
  upTo := by
    rw [same]
    exact rank.upTo
  previous := fun total length => by
    obtain ⟨small, inputs, inside⟩ := rank.previous total length
    exact ⟨small, inputs, gatheredMore i inside⟩
  active := fun exchange active => by
    obtain ⟨poisoned, room, vector_eq, active, complete⟩ := rank.active exchange active
    exact ⟨poisoned, room, vector_eq, active.mono calledMore gatheredMore,
      fun all => gatheredMore i (complete all)⟩

/-- Where every rank of a session has gathered, all have gathered what all
called with. -/
lemma Records.agree (records : Records add fixed called gathered network returned)
    (fresh : Fresh fixed) {step : UInt64}
    (everyone : ∀ rank : Fin (fixed i).peers, ∃ j inputs, Member fixed i rank.val j ∧
      (step, total, inputs) ∈ gathered j) :
    ∃ (members : Fin (fixed i).peers → ι)
      (inputs : Fin (fixed i).peers → Values), ∀ rank : Fin (fixed i).peers,
        Member fixed i rank.val (members rank) ∧
        (step, inputs rank) ∈ called (members rank) ∧
        (inputs rank).length = total ∧
        (∃ all, (step, total, all) ∈ gathered (members rank)) ∧
        ∀ j all, Member fixed i rank.val j →
          (step, total, all) ∈ gathered j → all = allInputs inputs := by
  choose members seen mem inside using everyone
  have own (rank : Fin (fixed i).peers) := (records.complete _ _ _ _ (inside rank)).own
  choose inputs calls lengths using own
  refine ⟨members, inputs, fun rank => ⟨mem rank, calls rank,
    lengths rank, ⟨_, inside rank⟩, fun j all here complete => ?_⟩⟩
  have gathered := records.complete _ _ _ _ complete
  have pos : 0 < chunkElements := by decide
  refine eq_allInputs_of_chunks lengths pos
    (by rw [gathered.length, here.peers]) fun source chunk inside => ?_
  obtain ⟨sender, values, sent, here', _, part⟩ := gathered.chunks source
    (by rw [here.peers]; exact source.isLt) chunk (chunk_lt_of_inside inside)
  -- the sender is the member with this rank, and it called once in this step
  have same : sender = members source := by
    have there := mem source
    refine fresh _ _ ?_ ?_
    · rw [sent.session, here.session, there.session]
    · rw [sent.rank, there.rank]
  subst same
  rw [records.once _ _ _ _ here' (calls source)] at part
  exact part

lemma tick_eq_returned {datagrams : List Bytes}
    (ticked : exchange.tick hmac group clock datagrams = .returned) :
    exchange.lingering = true := by
  rw [Exchange.tick] at ticked
  split at ticked
  next isOver => exact isOver.1
  next =>
    split at ticked
    next => cases ticked
    next => cases ticked

/-- A call that returns is agreed on by all ranks. -/
lemma Records.agreed_of_returned (records : Records add fixed called gathered network returned)
    (fresh : Fresh fixed) (rank : Rank fixed called gathered i group (some exchange) vector)
    (lingers : exchange.lingering = true) :
    Agreed add fixed called gathered i group.step (exchange.result add group.peers) := by
  obtain ⟨_, _, _, active, complete⟩ := rank.active exchange rfl
  obtain ⟨all, ready⟩ := active.lingering lingers
  have gathers := complete all
  have mine : Member fixed i group.rank i := ⟨rfl, rfl, rank.alike.rank.symm⟩
  have everyone (place : Fin (fixed i).peers) : ∃ j inputs, Member fixed i place.val j ∧
      (group.step, exchange.values.length, inputs) ∈ gathered j := by
    have place_lt : place.val < group.peers := by
      rw [rank.alike.peers]
      exact place.isLt
    by_cases own : place.val = group.rank
    · rw [own]
      exact ⟨i, _, mine, gathers⟩
    · exact active.others place own (ready place place_lt own)
  obtain ⟨members, inputs, all⟩ := records.agree fresh everyone
  refine ⟨exchange.values.length, members, inputs, fun place => ?_, ?_⟩
  · obtain ⟨member, call, length, ⟨seen, inside⟩, same⟩ := all place
    rw [← same _ _ member inside]
    exact ⟨member, call, length, inside⟩
  · have own_lt : group.rank < (fixed i).peers := by
      rw [← rank.alike.peers]
      exact group.member
    obtain ⟨_, _, _, _, same⟩ := all ⟨group.rank, own_lt⟩
    have whole := same i _ mine gathers
    have lengths (place) := (all place).2.2.1
    rw [combine_eq_map 0 add lengths, Exchange.result, rank.alike.peers]
    refine map_congr_left fun place inside => ?_
    refine foldl_range_eq_sumAt 0 add fun source => ?_
    rw [whole]
    exact getElem?_allInputs lengths source (mem_range.mp inside)

end Records

namespace Cluster

variable [DecidableEq ι]

/-- What holds at every moment. -/
structure Sound (add : Float32Bits → Float32Bits → Float32Bits)
    (fixed : ι → Group) (cluster : Cluster ι) : Prop where
  records : Records add fixed cluster.called cluster.gathered cluster.network cluster.returned
  ranks : ∀ index, Rank fixed cluster.called cluster.gathered index
    (cluster.groups index) (cluster.calls index) (cluster.vectors index)

variable {i : ι} {exchange : Exchange}

section Gather
variable {cluster : Cluster ι}

lemma gather_more (j : ι) : cluster.gathered j ⊆ cluster.gather i exchange j := by
  intro entry inside
  rw [gather]
  split
  next => exact mem_update_cons.mpr (.inr inside)
  next => exact inside

lemma gather_self (all : exchange.remaining = 0) :
    ((cluster.groups i).step, exchange.values.length, exchange.inputs) ∈
      cluster.gather i exchange i := by
  rw [gather, if_pos all, update_self]
  exact mem_cons_self

lemma mem_gather {j : ι} {entry : UInt64 × Nat × Values}
    (mem : entry ∈ cluster.gather i exchange j) :
    entry ∈ cluster.gathered j ∨ j = i ∧
      exchange.remaining = 0 ∧ entry = ((cluster.groups i).step,
        exchange.values.length, exchange.inputs) := by
  rw [gather] at mem
  split at mem
  next all => exact (mem_update_cons.mp mem).symm.imp_right fun new => ⟨new.1, all, new.2⟩
  next => exact .inl mem

end Gather

variable {cluster : Cluster ι} {fixed : ι → Group} {group : Group} {values : Values}

section
variable (sound : Sound add fixed cluster)
include sound

/-- The records when a rank has perhaps gathered everything and has sent
something. -/
lemma Sound.records_gather (calledMore : ∀ j, cluster.called j ⊆ called j)
    (once : Once called)
    (complete : exchange.remaining = 0 →
      Gathered fixed called i (cluster.groups i).step exchange.values.length exchange.inputs)
    {sent : List Bytes}
    (justified : ∀ bytes ∈ sent, Message (fixed i) (called i) (cluster.gather i exchange i) bytes) :
    Records add fixed called (cluster.gather i exchange)
      (sent ++ cluster.network) cluster.returned where
  once := once
  messages := fun msg mem => by
    rcases mem_append.mp mem with new | old
    · exact ⟨i, justified msg new⟩
    · obtain ⟨owner, known⟩ := sound.records.messages msg old
      exact ⟨owner, known.mono (calledMore owner) (gather_more owner)⟩
  complete := fun j step total inputs mem => by
    rcases mem_gather mem with old | ⟨rfl, all, entry⟩
    · exact (sound.records.complete _ _ _ _ old).mono calledMore
    · cases entry
      exact complete all
  agreed := fun j step result mem => (sound.records.agreed _ _ _ mem).mono calledMore gather_more

lemma Sound.begin (begun : (cluster.groups i).begin values = .ok (group, exchange)) :
    Sound add fixed { cluster with
      groups := update cluster.groups i group
      calls := update cluster.calls i (some exchange)
      vectors := update cluster.vectors i values
      called := update cluster.called i ((group.step, values) :: cluster.called i)
      gathered := cluster.gather i exchange } := by
  have rank := sound.ranks i
  obtain ⟨healthy, _, room, group_eq, exchange_eq⟩ := begin_eq_ok begun
  have step : group.step = (cluster.groups i).step := by rw [group_eq]
  have calledMore (j : ι) : cluster.called j ⊆
      update cluster.called i ((group.step, values) :: cluster.called i) j :=
    fun _ old => mem_update_cons.mpr (.inr old)
  have own : ((cluster.groups i).step, values) ∈
      update cluster.called i ((group.step, values) :: cluster.called i) i := by
    rw [update_self, step]
    exact mem_cons_self
  have active : Active fixed _ (cluster.gather i exchange) i group
      exchange := Active.of_begin begun own
  have alike : Alike group (fixed i) := by
    rw [group_eq]
    exact ⟨rank.alike.session, rank.alike.rank, rank.alike.peers, rank.alike.psk⟩
  refine ⟨sound.records_gather calledMore ?_ (fun all => ?_)
    (fun bytes (mem : bytes ∈ []) => by cases mem), fun j => ?_⟩
  · -- this step is later than all steps called so far
    intro j step' first second mem inside'
    rw [mem_update_cons, Prod.mk.injEq] at mem inside'
    rcases mem with ⟨rfl, rfl, rfl⟩ | mem <;> rcases inside' with ⟨same, early, rfl⟩ | inside'
    · rfl
    · have later := (rank.upTo _ _ inside').2 healthy
      rw [step] at later
      omega
    · rw [same] at mem
      have later := (rank.upTo _ _ mem).2 healthy
      rw [early, step] at later
      omega
    · exact sound.records.once _ _ _ _ mem inside'
  · rw [← step]
    exact Gathered.of_active alike active all
  · by_cases same : j = i
    · subst same
      simp only [update_self]
      refine ⟨alike, ?_, ?_, ?_⟩
      · intro step' values' mem
        rw [update_self] at mem
        rw [step]
        refine ⟨?_, fun not => ?_⟩
        · rcases mem_cons.mp mem with new | old
          · cases new
            rw [step]
          · exact (rank.upTo _ _ old).1
        · rw [group_eq] at not
          cases not
      · intro total length
        rw [group_eq] at length
        obtain ⟨small, inputs, mem⟩ := rank.previous total length
        rw [step]
        exact ⟨small, inputs, gather_more j mem⟩
      · intro exchange' same
        cases same
        refine ⟨by rw [group_eq], by rw [step]; exact room,
          by rw [exchange_eq], active, fun all => ?_⟩
        rw [step]
        exact gather_self all
    · simp only [update_of_ne same]
      exact (sound.ranks j).mono (update_of_ne same _ _) calledMore gather_more

/-- A round of the loop, behind which the call may be over. -/
lemma Sound.tick {datagrams sent left : List Bytes} {after : Exchange}
    (active : cluster.calls i = some exchange)
    (authentic : ∀ bytes ∈ datagrams, cluster.Authentic hmac (cluster.groups i) bytes)
    (ticked : exchange.tick hmac (cluster.groups i) clock datagrams = .next after sent)
    (first : left <+: sent) {call : Option Exchange}
    (goesOn : ∀ exchange, call = some exchange → exchange = after) : Sound add fixed { cluster with
      calls := update cluster.calls i call
      network := left ++ cluster.network
      gathered := cluster.gather i after } := by
  have rank := sound.ranks i
  obtain ⟨poisoned, room, vector, before, _⟩ := rank.active exchange active
  obtain ⟨holds, values, justified⟩ := before.tick rank.alike
    sound.records.messages rank.previous authentic ticked
  refine ⟨sound.records_gather (fun _ => List.Subset.refl _)
    sound.records.once (Gathered.of_active rank.alike holds)
    fun bytes mem => justified _ (gather_more i) gather_self bytes (first.subset mem), fun j => ?_⟩
  have others : Rank fixed cluster.called (cluster.gather i after) j _ _ _ :=
    (sound.ranks j).mono rfl (fun _ => List.Subset.refl _) gather_more
  by_cases same : j = i
  · subst same
    simp only [update_self]
    refine ⟨others.alike, others.upTo, others.previous, fun exchange' here => ?_⟩
    obtain rfl := goesOn exchange' here
    exact ⟨poisoned, room, vector.trans values.symm,
      holds.mono (fun _ => List.Subset.refl _) gather_more, gather_self⟩
  · simp only [update_of_ne same]
    exact others

lemma Sound.return (fresh : Fresh fixed) (active : cluster.calls i = some exchange)
    (lingers : exchange.lingering = true) :
    Sound add fixed { cluster with
      groups := update cluster.groups i ((cluster.groups i).returned exchange.values.length)
      calls := update cluster.calls i none
      vectors := update cluster.vectors i (exchange.result add (cluster.groups i).peers)
      returned := update cluster.returned i
        (((cluster.groups i).step, exchange.result add (cluster.groups i).peers) ::
          cluster.returned i) } := by
  have rank := sound.ranks i
  rw [active] at rank
  obtain ⟨_, room, _, before, complete⟩ := rank.active exchange rfl
  have next : ((cluster.groups i).step + 1).toNat = (cluster.groups i).step.toNat + 1 := by
    rw [UInt64.toNat_add]
    exact Nat.mod_eq_of_lt room
  have back : (cluster.groups i).step + 1 - 1 = (cluster.groups i).step := by
    rw [UInt64.add_sub_cancel]
  refine ⟨{ sound.records with agreed := ?_ }, fun j => ?_⟩
  · intro j step result inside
    rcases mem_update_cons.mp inside with ⟨rfl, new⟩ | old
    · cases new
      exact sound.records.agreed_of_returned fresh rank lingers
    · exact sound.records.agreed _ _ _ old
  · by_cases same : j = i
    · subst same
      simp only [update_self]
      refine ⟨⟨rank.alike.session, rank.alike.rank, rank.alike.peers,
        rank.alike.psk⟩, ?_, ?_, fun exchange' here => by cases here⟩
      · intro step values inside
        have early := (rank.upTo _ _ inside).1
        rw [Group.returned, next]
        exact ⟨by omega, fun _ => by omega⟩
      · intro total length
        cases length
        refine ⟨before.small, exchange.inputs, ?_⟩
        rw [Group.returned, back]
        exact complete (before.lingering lingers).1
    · simp only [update_of_ne same]
      exact sound.ranks j

lemma Sound.fail (i : ι) :
    Sound add fixed { cluster with
      calls := update cluster.calls i none } := by
  refine ⟨sound.records, fun j => ?_⟩
  by_cases same : j = i
  · subst same
    simp only [update_self]
    exact { sound.ranks j with
      active := fun exchange here => by cases here }
  · simp only [update_of_ne same]
    exact sound.ranks j

end

variable {cluster after : Cluster ι}

lemma Step.sound {fixed : ι → Group} (fresh : Fresh fixed) (step : Step hmac add cluster after)
    (sound : Sound add fixed cluster) : Sound add fixed after := by
  cases step with
  | begin idle begun => exact sound.begin begun
  | tick active authentic ticked =>
    exact sound.tick active authentic ticked (prefix_refl _)
      fun exchange here => (Option.some.inj here).symm
  | breakOff active authentic ticked first =>
    exact sound.tick active authentic ticked first fun exchange here => by cases here
  | «return» active ticked => exact sound.return fresh active (tick_eq_returned ticked)
  | fail active => exact sound.fail _

lemma run_sound {start : Cluster ι} (initial : start.Initial) (fresh : Fresh start.groups)
    (run : Relation.ReflTransGen (Step hmac add) start cluster) :
    Sound add start.groups cluster := by
  induction run with
  | refl =>
    refine ⟨⟨?_, ?_, ?_, ?_⟩, fun i => ⟨⟨rfl, rfl, rfl, rfl⟩, ?_, ?_, ?_⟩⟩
    -- nothing has happened yet: there is nothing in the records
    all_goals simp [Once, Previous, initial.called, initial.network, initial.gathered,
      initial.returned, initial.previous, initial.calls]
  | tail _ step ih => exact step.sound fresh ih

/-! ## Failed calls -/

/-- Where a rank with a call does not return a result, its group and its
caller's values stay. -/
lemma Step.failed {i : ι} {exchange : Exchange} (step : Step hmac add cluster after)
    (active : cluster.calls i = some exchange)
    (failed : after.returned i = cluster.returned i) :
    after.groups i = cluster.groups i ∧ after.vectors i = cluster.vectors i := by
  cases step with
  | @begin j values group exchange' idle begun =>
    have differ : i ≠ j := ne_of_apply_ne cluster.calls (by simp [idle, active])
    simp only [update_of_ne differ]
    exact ⟨trivial, trivial⟩
  | tick | breakOff => exact ⟨rfl, rfl⟩
  | @«return» j =>
    by_cases same : i = j
    · subst same
      simp only [update_self] at failed
      exact absurd failed (cons_ne_self _ _)
    · simp only [update_of_ne same]
      exact ⟨trivial, trivial⟩
  | fail => exact ⟨rfl, rfl⟩

/-- A group that refuses every call. -/
def Refuses (group : Group) : Prop :=
  ∀ values, ∃ message, group.begin values = .error message

lemma refuses_of_poisoned (bad : group.poisoned = true) : Refuses group := by
  intro values
  rw [Group.begin, if_pos bad]
  exact ⟨_, rfl⟩

/-- Only too many values are refused once. -/
lemma refuses_of_error {msg : String} (error : group.begin values = .error msg) :
    msg = sizeError ∨ Refuses group := by
  rw [Group.begin] at error
  split_ifs at error with bad sizes last
  · exact .inr (refuses_of_poisoned bad)
  · refine .inr fun others => ?_
    rw [Group.begin, if_pos last]
    split_ifs <;> exact ⟨_, rfl⟩
  · cases error
    exact .inl rfl

/-- A rank that refuses every call goes on to do so. -/
lemma run_refuses {later : Cluster ι} (run : Relation.ReflTransGen (Step hmac add) cluster later)
    (idle : cluster.calls i = none) (refuses : Refuses (cluster.groups i)) :
    later.calls i = none ∧ Refuses (later.groups i) := by
  induction run with
  | refl => exact ⟨idle, refuses⟩
  | @tail before _ _ step ih =>
    obtain ⟨idle, refuses⟩ := ih
    have differ {j exchange} (active : before.calls j = some exchange) : i ≠ j :=
      ne_of_apply_ne before.calls (by simp [idle, active])
    cases step with
    | @begin j values group exchange _ begun =>
      have differ : i ≠ j := by
        rintro rfl
        obtain ⟨msg, error⟩ := refuses values
        cases begun.symm.trans error
      simp only [update_of_ne differ]
      exact ⟨idle, refuses⟩
    | tick active | breakOff active | «return» active | fail active =>
      simp only [update_of_ne (differ active)]
      exact ⟨idle, refuses⟩

/-! ## The all-reduce -/

omit [DecidableEq ι] in
/-- Two ranks of one session that return from the same step return the same
vector. -/
lemma agreed_unique (fresh : Fresh fixed)
    (once : Once called) {j : ι} {step : UInt64} {result result' : Values}
    (session : (fixed i).session = (fixed j).session)
    (agreed : Agreed add fixed called gathered i step result)
    (agreed' : Agreed add fixed called gathered j step result') : result = result' := by
  obtain ⟨total, members, inputs, all, rfl⟩ := agreed
  obtain ⟨total', members', inputs', all', rfl⟩ := agreed'
  have peers : (fixed j).peers = (fixed i).peers := by
    -- one of the two is a member of the other's group
    by_cases inside : (fixed j).rank < (fixed i).peers
    · have member := (all ⟨_, inside⟩).1
      have same : members ⟨_, inside⟩ = j := fresh _ _ (member.session.trans session) member.rank
      rw [← member.peers, same]
    · have bound := (fixed i).member
      have bound' := (fixed j).member
      have inside : (fixed i).rank < (fixed j).peers := by omega
      have member := (all' ⟨_, inside⟩).1
      have same : members' ⟨_, inside⟩ = i :=
        fresh _ _ (member.session.trans session.symm) member.rank
      rw [← member.peers, same]
  revert members' inputs' all'
  rw [peers]
  intro members' inputs' all'
  have same (rank : Fin (fixed i).peers) : inputs rank = inputs' rank := by
    obtain ⟨member, here, _⟩ := all rank
    obtain ⟨member', here', _⟩ := all' rank
    have same : members rank = members' rank := by
      refine fresh _ _ ?_ (member.rank.trans member'.rank.symm)
      rw [member.session, member'.session, session]
    rw [same] at here
    exact once _ _ _ _ here here'
  have totals : total = total' := by
    have first : Fin (fixed i).peers := ⟨_, (fixed i).member⟩
    rw [← (all first).2.2.1, ← (all' first).2.2.1, same]
  rw [totals, funext same]

/-- In every run of ranks over a network that loses, repeats, reorders and
delays datagrams but forges none, with fresh sessions: if a rank's call for a
step returns, all ranks of its session have called in this step with vectors
of one length, each of them has gathered all these vectors, and the result is
their sum in ascending rank order; so all ranks that return from a step return
the same vector. A call that ends without a result leaves its caller's values,
and every later call of that rank is refused; a call that is refused at once
changes nothing, and unless it had too many values all later ones are refused
as well. -/
theorem cluster_reduces {start cluster : Cluster ι} (initial : start.Initial)
    (fresh : ∀ index other, (start.groups index).session = (start.groups other).session →
      (start.groups index).rank = (start.groups other).rank → index = other)
    (run : Relation.ReflTransGen (Step hmac add) start cluster) :
    (∀ index step result, (step, result) ∈ cluster.returned index →
      Agreed add start.groups cluster.called cluster.gathered index step result) ∧
    (∀ index other step result result',
      (start.groups index).session = (start.groups other).session →
      (step, result) ∈ cluster.returned index →
      (step, result') ∈ cluster.returned other → result = result') ∧
    (∀ index exchange after, cluster.calls index = some exchange →
      Step hmac add cluster after → after.calls index = none →
      after.returned index = cluster.returned index →
      after.vectors index = exchange.values ∧
      ∀ later, Relation.ReflTransGen (Step hmac add) after later →
        ∀ values, ∃ message, (later.groups index).begin values = .error message) ∧
    (∀ index values message, cluster.calls index = none →
      (cluster.groups index).begin values = .error message →
      message = sizeError ∨
      ∀ later, Relation.ReflTransGen (Step hmac add) cluster later →
        ∀ values, ∃ message, (later.groups index).begin values = .error message) := by
  have sound := run_sound initial fresh run
  refine ⟨sound.records.agreed, fun index other step result result' session first second => ?_,
    fun index exchange after active step isOver failed => ?_,
    fun index values message idle error => ?_⟩
  · exact agreed_unique fresh sound.records.once session
      (sound.records.agreed _ _ _ first) (sound.records.agreed _ _ _ second)
  · obtain ⟨poisoned, _, vector, _⟩ := (sound.ranks index).active exchange active
    obtain ⟨group, kept⟩ := step.failed active failed
    refine ⟨kept.trans vector, fun later run => ?_⟩
    exact (run_refuses run isOver (refuses_of_poisoned (by rw [group]; exact poisoned))).2
  · refine (refuses_of_error error).imp_right fun refuses later run => ?_
    exact (run_refuses run idle refuses).2

/-! Two ranks that exchange one value each. -/

lemma two_le_maxParticipants : 2 ≤ maxParticipants := by decide

lemma pairedRank_lt (rank : Fin 2) : rank.val < 1 + 1 := rank.isLt

def pairedRank (rank : Fin 2) : Group where
  rank := rank.val
  peers := 2
  session := Vector.replicate 16 0
  psk := []
  step := 0
  poisoned := false
  previousLen := none
  few := two_le_maxParticipants
  member := pairedRank_lt rank

def paired : Cluster (Fin 2) where
  groups := pairedRank
  calls := fun _ => none
  vectors := fun _ => []
  network := []
  called := fun _ => []
  gathered := fun _ => []
  returned := fun _ => []

/-- Everything is due, and the linger time is over. -/
def pairedClock : Clock := ⟨true, false, fun _ => true, true, true, 16⟩

def pairedDigest : Digest := Vector.replicate 32 0

/-- The message of a rank of the pair. -/
def pairedBody (kind : Kind) (rank : Nat) (values : List Float32Bits) : List UInt8 :=
  body ⟨Vector.replicate 16 0, 0, 2, 1⟩ kind rank 0 values

/-- Messages with their tags. -/
def pairedSealed (messages : List (List UInt8)) : List (List UInt8) :=
  messages.map (· ++ pairedDigest.toList)

lemma authentic_paired {cluster : Cluster (Fin 2)} {messages : List Bytes}
    (sent : ∀ msg ∈ messages, msg ∈ cluster.network) :
    ∀ bytes ∈ pairedSealed messages, cluster.Authentic (fun _ _ => pairedDigest) group bytes := by
  intro bytes mem size genuine
  obtain ⟨msg, inside, rfl⟩ := mem_map.mp mem
  have lengths := congrArg List.length genuine
  rw [length_drop, length_append, Vector.length_toList] at lengths
  rw [take_left' (by omega)]
  exact sent msg inside

/-- A run in which both ranks return. -/
lemma paired_run :
    ∃ cluster : Cluster (Fin 2),
      Relation.ReflTransGen (Step (fun _ _ => pairedDigest) (· + ·)) paired cluster ∧
      cluster.returned 0 = [(0, [12])] ∧
      cluster.returned 1 = [(0, [12])] := by
  have run := Relation.ReflTransGen.single (@Step.begin _ _
    (fun _ _ => pairedDigest) (· + ·) paired 0 [5]
    { pairedRank 0 with poisoned := true }
    ⟨[5], [5, 0], [false, false], 1, [false, false], false, 1⟩ rfl rfl)
  have run := run.tail (@Step.begin _ _ _ _ _ 1 [7]
    { pairedRank 1 with poisoned := true }
    ⟨[7], [0, 7], [false, false], 1, [false, false], false, 1⟩ rfl rfl)
  -- the first rank sends its value
  have run := run.tail (@Step.tick _ _ _ _ _ 0 _ pairedClock []
    ⟨[5], [5, 0], [false, false], 1, [false, false], false, 1⟩
    [pairedBody .data 0 [5]] rfl nofun
    (by decide +kernel))
  -- the second has both values, says so and sends its own
  have run := run.tail (@Step.tick _ _ _ _ _ 1 _ pairedClock
    (pairedSealed [pairedBody .data 0 [5]])
    ⟨[7], [5, 7], [true, false], 0, [false, true], false, 1⟩
    [pairedBody .ready 1 [], pairedBody .data 1 [7]] rfl
    (authentic_paired (by decide +kernel)) (by decide +kernel))
  -- the first has everything and knows that the second has
  have run := run.tail (@Step.tick _ _ _ _ _ 0 _ pairedClock
    (pairedSealed [pairedBody .data 1 [7], pairedBody .ready 1 []])
    ⟨[5], [5, 7], [false, true], 0, [true, true], true, 1⟩
    [pairedBody .ready 0 []] rfl
    (authentic_paired (by decide +kernel)) (by decide +kernel))
  have run := run.tail (@Step.tick _ _ _ _ _ 1 _ pairedClock
    (pairedSealed [pairedBody .ready 0 []])
    ⟨[7], [5, 7], [true, false], 0, [true, true], true, 1⟩
    [pairedBody .ready 1 []] rfl
    (authentic_paired (by decide +kernel)) (by decide +kernel))
  have run := run.tail (@Step.return _ _ _ _ _ 0 _ pairedClock [] rfl (by decide +kernel))
  have run := run.tail (@Step.return _ _ _ _ _ 1 _ pairedClock [] rfl (by decide +kernel))
  exact ⟨_, run, by decide +kernel, by decide +kernel⟩

/-- Both ranks return the sum of their values. -/
theorem cluster_reduces_of_pair :
    ∃ cluster : Cluster (Fin 2),
      Relation.ReflTransGen (Step (fun _ _ => pairedDigest) (· + ·)) paired cluster ∧
      ∀ rank, (0, [12]) ∈ cluster.returned rank ∧
        Agreed (· + ·) paired.groups cluster.called cluster.gathered rank 0 [12] := by
  have initial : paired.Initial :=
    ⟨fun _ => rfl, fun _ => rfl, fun _ => rfl, rfl, fun _ => rfl, fun _ => rfl, fun _ => rfl⟩
  have fresh (index other : Fin 2)
      (_ : (paired.groups index).session = (paired.groups other).session)
      (same : (paired.groups index).rank = (paired.groups other).rank) :
      index = other := Fin.ext same
  obtain ⟨cluster, run, first, second⟩ := paired_run
  have returned (rank : Fin 2) : (0, [12]) ∈ cluster.returned rank := by
    match rank with
    | 0 => exact first ▸ List.mem_singleton.mpr rfl
    | 1 => exact second ▸ List.mem_singleton.mpr rfl
  exact ⟨cluster, run, fun rank => ⟨returned rank,
    (cluster_reduces initial fresh run).1 rank 0 [12] (returned rank)⟩⟩

/-- A call with too many values is refused, and a later one of that rank
returns. -/
theorem returns_after_refusal :
    (paired.groups 0).begin (List.replicate 262145 0) = .error sizeError ∧
    ∃ cluster : Cluster (Fin 2),
      Relation.ReflTransGen (Step (fun _ _ => pairedDigest) (· + ·)) paired
        cluster ∧ cluster.returned 0 = [(0, [12])] := by
  have long : ¬ (List.replicate 262145 (0 : Float32Bits)).length ≤ maxTensorElements := by
    rw [length_replicate]
    decide
  obtain ⟨cluster, run, returned, _⟩ := paired_run
  refine ⟨?_, cluster, run, returned⟩
  rw [Group.begin, if_neg (by decide), if_pos (fun sizes => long sizes.1)]

end Cluster

/-! ## The receive buffer -/

section Buffer
open Cluster

variable {values : Values} {packet : Packet}

/-- A packet with data of another rank, as `decode` lets it through. -/
def Incoming (hmac : Bytes → Bytes → Digest) (group : Group) (total : Nat)
    (packet : Packet) : Prop :=
  packet.kind = .data ∧ packet.rank ≠ group.rank ∧
    ∃ bytes, decode hmac group.psk bytes (group.envelope total) = some packet

def firstOf (packets : List Packet) (rank chunk : Nat) : Option Packet :=
  packets.find? fun packet => packet.rank = rank ∧ packet.chunk = chunk

/-- A chunk behind some packets: the values of the first packet with it, and
before that what the exchange began with. -/
def received (begun : Exchange) (packets : List Packet) (rank chunk : Nat) : Values :=
  match firstOf packets rank chunk with
  | some packet => packet.words
  | none => slice (rank * begun.values.length + chunk * chunkElements)
      (chunkLength begun.values.length chunk) begun.inputs

lemma Incoming.fits (incoming : Incoming hmac group total packet) : packet.rank < group.peers ∧
    packet.chunk < chunkCount total ∧ packet.words.length = chunkLength total packet.chunk := by
  obtain ⟨data, _, bytes, found⟩ := incoming
  obtain ⟨values, payload, admissible, _⟩ := decode_accepted found
  have shape := admissible.shape
  rw [data] at shape
  refine ⟨admissible.member, shape.1, ?_⟩
  rw [readWords_length, payload, wordBytes_length, Nat.mul_div_cancel _ (by decide)]
  exact shape.2

/-- The buffer behind some packets. -/
structure Collected (group : Group) (begun : Exchange) (packets : List Packet)
    (exchange : Exchange) : Prop where
  values : exchange.values = begun.values
  inputs : exchange.inputs.length = group.peers * begun.values.length
  seen : exchange.seen.length = group.peers * chunkCount begun.values.length
  remaining : exchange.remaining = (missing group exchange).card
  slots : ∀ rank, ∀ chunk < chunkCount begun.values.length,
    exchange.seen.getD (rank * chunkCount begun.values.length + chunk) false =
      (firstOf packets rank chunk).isSome ∧
    slice (rank * begun.values.length + chunk * chunkElements)
      (chunkLength begun.values.length chunk) exchange.inputs = received begun packets rank chunk

/-- A packet for a chunk that is there changes nothing; another one finds the
counter above zero and its chunk within the buffer. -/
lemma Collected.step {begun exchange : Exchange} {packets : List Packet}
    (collected : Collected group begun packets exchange)
    (incoming : Incoming hmac group begun.values.length packet) :
    Collected group begun (packets ++ [packet]) (exchange.acceptData packet) ∧
    if (firstOf packets packet.rank packet.chunk).isSome then
      exchange.acceptData packet = exchange
    else 0 < exchange.remaining ∧
      packet.rank * chunkCount begun.values.length + packet.chunk < exchange.seen.length ∧
      packet.rank * begun.values.length + packet.chunk * chunkElements + packet.words.length ≤
        exchange.inputs.length := by
  obtain ⟨kept, inputs, seen, remaining, slots⟩ := collected
  obtain ⟨rank_lt, chunk_lt, length⟩ := incoming.fits
  have flag := (slots packet.rank packet.chunk chunk_lt).1
  have later (rank chunk : Nat) : firstOf (packets ++ [packet]) rank chunk =
      (firstOf packets rank chunk).or
        (if packet.rank = rank ∧ packet.chunk = chunk then some packet else none) := by
    rw [firstOf, find?_append, find?_singleton]
    simp only [decide_eq_true_eq, firstOf]
  split
  next old =>
    have same : exchange.acceptData packet = exchange := by
      rw [Exchange.acceptData, kept, flag, if_pos old]
    rw [same]
    refine ⟨⟨kept, inputs, seen, remaining, fun rank chunk chunk_lt' => ?_⟩, rfl⟩
    have first : firstOf (packets ++ [packet]) rank chunk = firstOf packets rank chunk := by
      rw [later]
      split
      next same =>
        obtain ⟨rfl, rfl⟩ := same
        exact Option.or_of_isSome old
      next => exact Option.or_none
    rw [received, first]
    exact slots rank chunk chunk_lt'
  next fresh =>
    have unseen := flag.trans (Bool.eq_false_iff.mpr fresh)
    obtain ⟨inputs', seen', slots'⟩ :=
      acceptData_new (congrArg _ kept) inputs seen rank_lt chunk_lt length unseen
    obtain ⟨above, remaining'⟩ := remaining_new (congrArg _ kept) inputs seen rank_lt chunk_lt
      length unseen incoming.2.1 remaining
    refine ⟨⟨acceptData_values.trans kept, inputs', seen', remaining',
      fun rank chunk chunk_lt' => ?_⟩, above, ?_, ?_⟩
    · rw [(slots' rank chunk chunk_lt').1, (slots' rank chunk chunk_lt').2, received, later]
      split
      next same =>
        obtain ⟨rfl, rfl⟩ := same
        rw [Option.not_isSome_iff_eq_none.mp fresh]
        exact ⟨rfl, rfl⟩
      next =>
        rw [Option.or_none]
        exact slots rank chunk chunk_lt'
    · rw [seen]
      exact table_lt rank_lt chunk_lt
    · rw [inputs, length]
      exact chunk_end_le rank_lt chunk_lt

/-- The packets that a rank is handed in an exchange: what remains are the
chunks of other ranks that were in none, a packet for a chunk that it has
changes nothing, another one finds the counter above zero and its chunk within
the buffer, and the values of a rank are those received, one chunk behind the
other. -/
theorem acceptData_collects {after : Group} {exchange : Exchange} {packets : List Packet}
    (begun : group.begin values = .ok (after, exchange))
    (incoming : ∀ packet ∈ packets, Incoming hmac group values.length packet) :
    let collected := packets.foldl Exchange.acceptData exchange
    collected.remaining = (((Finset.range group.peers).erase group.rank ×ˢ
      Finset.range (chunkCount values.length)).filter fun slot =>
        (firstOf packets slot.1 slot.2).isSome = false).card ∧
    (∀ packet, Incoming hmac group values.length packet →
      if (firstOf packets packet.rank packet.chunk).isSome then
        collected.acceptData packet = collected
      else 0 < collected.remaining ∧
        packet.rank * chunkCount values.length + packet.chunk < collected.seen.length ∧
        packet.rank * values.length + packet.chunk * chunkElements + packet.words.length ≤
          collected.inputs.length) ∧
    ∀ rank, slice (rank * values.length) values.length collected.inputs =
      (List.range (chunkCount values.length)).flatMap (received exchange packets rank) := by
  intro collected
  obtain ⟨rfl, inputs, seen, unseen, remaining, _⟩ := begin_missing begun
  have run : Collected group exchange packets (packets.foldl Exchange.acceptData exchange) := by
    induction packets using List.reverseRecOn with
    | nil => exact ⟨rfl, inputs, seen, remaining, fun rank chunk _ => ⟨unseen _, rfl⟩⟩
    | append_singleton packets packet ih =>
      obtain ⟨before, last⟩ := forall_mem_append.mp incoming
      rw [foldl_append]
      exact ((ih before).step (last packet mem_cons_self)).1
  refine ⟨?_, fun packet new => (run.step new).2, fun rank => ?_⟩
  · rw [run.remaining, missing, run.values]
    refine congrArg _ (Finset.filter_congr fun slot mem => ?_)
    rw [(run.slots slot.1 slot.2 (Finset.mem_range.mp (Finset.mem_product.mp mem).2)).1]
  · have enough : exchange.values.length ≤ chunkCount exchange.values.length * chunkElements := by
      rw [chunkCount, chunkElements]
      omega
    rw [slice_blocks _ _ enough]
    exact flatMap_congr fun chunk mem => (run.slots rank chunk (List.mem_range.mp mem)).2

/-- The value that the second rank of the pair sends. -/
def pairedPacket : Packet := ⟨.data, 1, 0, wordBytes [7]⟩

/-- The first rank is handed the value of the second twice. -/
theorem acceptData_collects_of_pair : ∃ after exchange,
    (pairedRank 0).begin [5] = .ok (after, exchange) ∧
    Incoming (fun _ _ => pairedDigest) (pairedRank 0) 1 pairedPacket ∧
    slice 1 1 ([pairedPacket, pairedPacket].foldl Exchange.acceptData exchange).inputs = [7] := by
  obtain ⟨⟨after, exchange⟩, begun⟩ : ∃ started, (pairedRank 0).begin [5] = .ok started := ⟨_, rfl⟩
  have incoming : Incoming (fun _ _ => pairedDigest) (pairedRank 0) 1 pairedPacket :=
    ⟨rfl, by decide, pairedBody .data 1 [7] ++ pairedDigest.toList, by decide +kernel⟩
  have collects := acceptData_collects begun
    (fun packet (mem : packet ∈ [pairedPacket, pairedPacket]) => by
      simp only [mem_cons, not_mem_nil, or_false, or_self] at mem
      exact mem ▸ incoming)
  exact ⟨after, exchange, begun, incoming, collects.2.2 1⟩

end Buffer

end Joshua.UdpReduce
