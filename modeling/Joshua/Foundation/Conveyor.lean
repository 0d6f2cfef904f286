/-
Module: Joshua.Foundation.Conveyor
Purpose: Threads in a row that hand items on through bounded channels: a
  feeder, one thread per stage with a worker of its own, and a collector.
  Every schedule brings the same items through the same stages in the same
  order, none gets stuck, and all end.
Trusted boundary: channels keep their order and disconnect when their other
  side is gone
-/
import Mathlib.Algebra.Order.BigOperators.Group.Finset

namespace Joshua.Foundation
open List

open Function (forall_update_iff update update_of_ne update_self)

/-- Where a stage's thread is. -/
inductive Thread (α ε : Type*)
  | waiting
  | holding (item : α)
  | sending (item : α)
  | done
  | failed (error : ε)
deriving DecidableEq

/-- The thread has left its loop and has dropped its ends of its channels. -/
def Thread.ended {α ε : Type*} : Thread α ε → Bool
  | done | failed _ => true
  | _ => false

/-- Stage `r` takes from channel `r` and sends into channel `r + 1`; the feeder
sends into channel `0`, and the collector takes from the last one. What each
stage has taken is recorded. -/
structure Conveyor (σ α ε : Type*) where
  feed : List α
  queue : Nat → List α
  thread : Nat → Thread α ε
  worker : Nat → σ
  received : Nat → List α
  collected : List α

namespace Conveyor

variable {σ α ε : Type*}

/-- Before the first move. -/
def start (items : List α) (worker : Nat → σ) : Conveyor σ α ε where
  feed := items
  queue := fun _ => []
  thread := fun _ => .waiting
  worker := worker
  received := fun _ => []
  collected := []

/-- The receiving side of a channel is gone. -/
def ReceiverGone (stages : Nat) (conveyor : Conveyor σ α ε) (channel : Nat) : Prop :=
  channel < stages ∧ (conveyor.thread channel).ended = true

/-- The sending side of a channel is gone. -/
def SenderGone (conveyor : Conveyor σ α ε) : Nat → Prop
  | 0 => conveyor.feed = []
  | stage + 1 => (conveyor.thread stage).ended = true

/-- The moves of the threads. -/
inductive Move (stages depth : Nat) (process : Nat → σ → α → Except ε (σ × α)) :
    Conveyor σ α ε → Conveyor σ α ε → Prop
  | feed {conveyor : Conveyor σ α ε} {item rest}
      (next : conveyor.feed = item :: rest)
      (room : (conveyor.queue 0).length < depth)
      (there : ¬ conveyor.ReceiverGone stages 0) :
      Move stages depth process conveyor { conveyor with
        feed := rest
        queue := update conveyor.queue 0 (conveyor.queue 0 ++ [item]) }
  | feedGone {conveyor : Conveyor σ α ε} (left : conveyor.feed ≠ [])
      (gone : conveyor.ReceiverGone stages 0) :
      Move stages depth process conveyor { conveyor with feed := [] }
  | take {conveyor : Conveyor σ α ε} {stage item rest}
      (inside : stage < stages)
      (waits : conveyor.thread stage = .waiting)
      (next : conveyor.queue stage = item :: rest) :
      Move stages depth process conveyor { conveyor with
        queue := update conveyor.queue stage rest
        thread := update conveyor.thread stage (.holding item)
        received := update conveyor.received stage (conveyor.received stage ++ [item]) }
  | close {conveyor : Conveyor σ α ε} {stage} (inside : stage < stages)
      (waits : conveyor.thread stage = .waiting)
      (empty : conveyor.queue stage = [])
      (gone : conveyor.SenderGone stage) :
      Move stages depth process conveyor { conveyor with
        thread := update conveyor.thread stage .done }
  | work {conveyor : Conveyor σ α ε} {stage item worker result}
      (inside : stage < stages)
      (holds : conveyor.thread stage = .holding item)
      (worked : process stage (conveyor.worker stage) item = .ok (worker, result)) :
      Move stages depth process conveyor { conveyor with
        thread := update conveyor.thread stage (.sending result)
        worker := update conveyor.worker stage worker }
  | send {conveyor : Conveyor σ α ε} {stage item} (inside : stage < stages)
      (sends : conveyor.thread stage = .sending item)
      (room : (conveyor.queue (stage + 1)).length < depth)
      (there : ¬ conveyor.ReceiverGone stages (stage + 1)) :
      Move stages depth process conveyor { conveyor with
        queue := update conveyor.queue (stage + 1) (conveyor.queue (stage + 1) ++ [item])
        thread := update conveyor.thread stage .waiting }
  | sendGone {conveyor : Conveyor σ α ε} {stage item}
      (inside : stage < stages)
      (sends : conveyor.thread stage = .sending item)
      (gone : conveyor.ReceiverGone stages (stage + 1)) :
      Move stages depth process conveyor { conveyor with
        thread := update conveyor.thread stage .done }
  | collect {conveyor : Conveyor σ α ε} {item rest}
      (next : conveyor.queue stages = item :: rest) :
      Move stages depth process conveyor { conveyor with
        queue := update conveyor.queue stages rest
        collected := conveyor.collected ++ [item] }

/-- A worker refuses an item; what is left of the worker then is not known. -/
inductive Refusal (stages : Nat) (process : Nat → σ → α → Except ε (σ × α)) :
    Conveyor σ α ε → Conveyor σ α ε → Prop
  | refuse {conveyor : Conveyor σ α ε} {stage item error}
      (inside : stage < stages)
      (holds : conveyor.thread stage = .holding item)
      (refused : process stage (conveyor.worker stage) item = .error error)
      (worker : σ) :
      Refusal stages process conveyor { conveyor with
        thread := update conveyor.thread stage (.failed error)
        worker := update conveyor.worker stage worker }

/-- A worker cannot be reached, or its answer cannot; what is left of it then
is not known. -/
inductive Loss (stages : Nat) : Conveyor σ α ε → Conveyor σ α ε → Prop
  | lose {conveyor : Conveyor σ α ε} {stage item} (inside : stage < stages)
      (holds : conveyor.thread stage = .holding item) (error : ε)
      (worker : σ) :
      Loss stages conveyor { conveyor with
        thread := update conveyor.thread stage (.failed error)
        worker := update conveyor.worker stage worker }

/-- All threads have ended. -/
structure Finished (stages : Nat) (conveyor : Conveyor σ α ε) : Prop where
  feed : conveyor.feed = []
  threads : ∀ stage < stages, (conveyor.thread stage).ended = true
  collected : conveyor.queue stages = []

/-! ## What flows where

`level r k` is item `k` as it comes to stage `r`, and `state r k` is the worker
of stage `r` before it. -/

section Flow
variable {stages depth total : Nat}
  {process : Nat → σ → α → Except ε (σ × α)} {level : Nat → Nat → α}
  {state : Nat → Nat → σ}

/-- What a thread is at, when it has taken and sent so many items. -/
def Place (total : Nat) (level : Nat → Nat → α) (state : Nat → Nat → σ)
    (stage taken sent : Nat) (worker : σ) : Thread α ε → Prop
  | .waiting => taken = sent ∧ worker = state stage sent
  | .holding item => taken = sent + 1 ∧ worker = state stage sent ∧ item = level stage sent
  | .sending item => taken = sent + 1 ∧ worker = state stage (sent + 1) ∧
      item = level (stage + 1) sent
  | .done => taken = total ∧ sent = total ∧ worker = state stage total
  | .failed _ => False

/-- Items from one number to another, as they come to a stage. -/
def between (level : Nat → Nat → α) (stage first last : Nat) : List α :=
  (List.range' first (last - first)).map (level stage)

/-- Everything is where so many taken and sent items put it. -/
structure Flow (stages total : Nat) (level : Nat → Nat → α) (state : Nat → Nat → σ)
    (conveyor : Conveyor σ α ε) (taken sent : Nat → Nat) : Prop where
  feed : conveyor.feed = between level 0 (sent 0) total
  fed : sent 0 ≤ total
  order : ∀ channel ≤ stages, taken channel ≤ sent channel
  queue : ∀ channel ≤ stages, conveyor.queue channel =
    between level channel (taken channel) (sent channel)
  thread : ∀ stage < stages, Place total level state stage (taken stage)
    (sent (stage + 1)) (conveyor.worker stage) (conveyor.thread stage)
  received : ∀ stage < stages, conveyor.received stage = between level stage 0 (taken stage)
  collected : conveyor.collected = between level stages 0 (taken stages)

lemma between_self (stage place : Nat) : between level stage place place = [] := by
  simp [between]

variable {line : Conveyor σ α ε} {stage : Nat} {first last : Nat}

lemma between_concat (order : first ≤ last) : between level stage first last ++ [level stage last] =
      between level stage first (last + 1) := by
  have size : last + 1 - first = last - first + 1 := by omega
  rw [between, between, size, List.range'_concat, map_append]
  simp only [one_mul, map_cons, map_nil]
  rw [Nat.add_sub_cancel' order]

/-- The first of some items. -/
lemma between_eq_cons {item : α} {rest : List α}
    (split : between level stage first last = item :: rest) :
    first < last ∧ item = level stage first ∧ rest = between level stage (first + 1) last := by
  rw [between] at split
  cases size : last - first with
  | zero =>
    rw [size] at split
    cases split
  | succ more =>
    rw [size, List.range'_succ, map_cons, List.cons.injEq] at split
    refine ⟨by omega, split.1.symm, ?_⟩
    rw [between, ← split.2]
    congr 2
    omega

lemma between_eq_nil : between level stage first last = [] ↔ last ≤ first := by
  rw [between, map_eq_nil_iff, List.range'_eq_nil_iff]
  omega

lemma start_flow {items : List α} {worker : Nat → σ} (items_eq : items = between level 0 0 total)
    (workers : ∀ stage < stages, worker stage = state stage 0) :
    Flow stages total level state
      (start items worker : Conveyor σ α ε) (fun _ => 0) (fun _ => 0) where
  feed := items_eq
  fed := Nat.zero_le _
  order := fun _ _ => le_refl 0
  queue := fun channel _ => (between_self channel 0).symm
  thread := fun stage inside => ⟨rfl, workers stage inside⟩
  received := fun stage _ => (between_self stage 0).symm
  collected := (between_self stages 0).symm

/-- The work of every stage on every item. -/
def Works (stages total : Nat) (process : Nat → σ → α → Except ε (σ × α))
    (level : Nat → Nat → α) (state : Nat → Nat → σ) : Prop :=
  ∀ stage < stages, ∀ number < total, process stage (state stage number) (level stage number) =
      .ok (state stage (number + 1), level (stage + 1) number)

section Facts
variable {line after : Conveyor σ α ε} {taken sent : Nat → Nat}
  (flow : Flow stages total level state line taken sent)
include flow

variable {stage channel : Nat} {item : α} {rest : List α}

/-- A stage sends no more than it has taken. -/
lemma Flow.sent_le_taken (lt : stage < stages) : sent (stage + 1) ≤ taken stage := by
  have place := flow.thread stage lt
  cases thread : line.thread stage <;> rw [thread] at place <;>
    simp only [Place] at place <;> omega

lemma Flow.sent_le (lt : channel ≤ stages) : sent channel ≤ total := by
  induction channel with
  | zero => exact flow.fed
  | succ stage ih =>
    have before := ih (by omega)
    have order := flow.order stage (by omega)
    have passed := flow.sent_le_taken lt
    omega

/-- A thread that has ended has taken and sent everything. -/
lemma Flow.done_of_ended (lt : stage < stages) (ended : (line.thread stage).ended = true) :
    taken stage = total ∧ sent (stage + 1) = total ∧ line.worker stage = state stage total := by
  have place := flow.thread stage lt
  cases thread : line.thread stage with
  | done =>
    rw [thread] at place
    exact place
  | failed error =>
    rw [thread] at place
    exact place.elim
  | waiting | holding | sending =>
    rw [thread] at ended
    cases ended

/-- Who has gone has taken everything. -/
lemma Flow.taken_of_gone (gone : line.ReceiverGone stages channel) : taken channel = total :=
  (flow.done_of_ended gone.1 gone.2).1

/-- Behind a sender that has gone everything has been sent. -/
lemma Flow.sent_of_gone (lt : channel ≤ stages)
    (gone : line.SenderGone channel) : sent channel = total := by
  cases channel with
  | zero =>
    have all := flow.feed.symm.trans gone
    rw [between_eq_nil] at all
    exact le_antisymm flow.fed all
  | succ stage => exact (flow.done_of_ended lt gone).2.1

/-- The threads that a move does not touch are where they were. -/
lemma Flow.thread_of_elsewhere (stage : Nat) {takes sends : Nat → Nat}
    (elsewhere : ∀ j ≠ stage, takes j = taken j ∧ sends (j + 1) = sent (j + 1) ∧
      after.worker j = line.worker j ∧ after.thread j = line.thread j)
    (place : Place total level state stage (takes stage) (sends (stage + 1))
      (after.worker stage) (after.thread stage)) (j : Nat) (lt : j < stages) :
    Place total level state j (takes j) (sends (j + 1)) (after.worker j) (after.thread j) := by
  obtain rfl | other := eq_or_ne j stage
  · exact place
  · obtain ⟨taken_eq, sent_eq, worker_eq, thread_eq⟩ := elsewhere j other
    rw [taken_eq, sent_eq, worker_eq, thread_eq]
    exact flow.thread j lt

/-- One item more in a channel. -/
lemma Flow.channel_send (lt : channel ≤ stages) :
    (∀ j ≤ stages, taken j ≤ update sent channel (sent channel + 1) j) ∧
      ∀ j ≤ stages, update line.queue channel
          (line.queue channel ++ [level channel (sent channel)]) j =
        between level j (taken j) (update sent channel (sent channel + 1) j) := by
  have order := flow.order channel lt
  constructor
  · exact (forall_update_iff sent fun j sends => j ≤ stages → taken j ≤ sends).mpr
      ⟨fun _ => Nat.le_succ_of_le order, fun j _ => flow.order j⟩
  · intro j inside
    obtain rfl | other := eq_or_ne j channel
    · simp only [update_self]
      rw [flow.queue j inside, between_concat order]
    · simp only [update_of_ne other]
      exact flow.queue j inside

/-- One item less in a channel. -/
lemma Flow.channel_take (lt : channel ≤ stages) (next : line.queue channel = item :: rest) :
    item = level channel (taken channel) ∧
      (∀ j ≤ stages, update taken channel (taken channel + 1) j ≤ sent j) ∧
      ∀ j ≤ stages, update line.queue channel rest j =
        between level j (update taken channel (taken channel + 1) j) (sent j) := by
  obtain ⟨more, rfl, rfl⟩ := between_eq_cons ((flow.queue channel lt).symm.trans next)
  refine ⟨rfl, ?_, fun j inside => ?_⟩
  · exact (forall_update_iff taken fun j takes => j ≤ stages → takes ≤ sent j).mpr
      ⟨fun _ => more, fun j _ => flow.order j⟩
  · obtain rfl | other := eq_or_ne j channel
    · simp only [update_self]
    · simp only [update_of_ne other]
      exact flow.queue j inside

lemma Flow.feedOne (next : line.feed = item :: rest) :
    Flow stages total level state { line with
        feed := rest
        queue := update line.queue 0 (line.queue 0 ++ [item]) }
      taken (update sent 0 (sent 0 + 1)) := by
  obtain ⟨more, rfl, rfl⟩ := between_eq_cons (flow.feed.symm.trans next)
  obtain ⟨order, queue⟩ := flow.channel_send (Nat.zero_le _)
  refine ⟨?_, ?_, order, queue, ?_, flow.received, flow.collected⟩
  · rw [update_self]
  · rw [update_self]
    exact more
  · intro stage inside
    rw [update_of_ne (Nat.succ_ne_zero stage)]
    exact flow.thread stage inside

lemma Flow.takeOne (lt : stage < stages) (waits : line.thread stage = .waiting)
    (next : line.queue stage = item :: rest) :
    Flow stages total level state { line with
        queue := update line.queue stage rest
        thread := update line.thread stage (.holding item)
        received := update line.received stage (line.received stage ++ [item]) }
      (update taken stage (taken stage + 1)) sent := by
  obtain ⟨rfl, order, queue⟩ := flow.channel_take (le_of_lt lt) next
  have place := flow.thread stage lt
  rw [waits] at place
  obtain ⟨taken_eq, worker_eq⟩ := place
  refine ⟨flow.feed, flow.fed, order, queue, ?_, ?_, ?_⟩
  · apply flow.thread_of_elsewhere stage fun j other => by simp [other]
    simp only [update_self]
    exact ⟨by rw [taken_eq], worker_eq, by rw [taken_eq]⟩
  · intro j inside
    obtain rfl | other := eq_or_ne j stage
    · simp only [update_self]
      rw [flow.received j inside, between_concat (Nat.zero_le _)]
    · simp only [update_of_ne other]
      exact flow.received j inside
  · rw [update_of_ne (Nat.ne_of_gt lt)]
    exact flow.collected

lemma Flow.sendOne (lt : stage < stages) (sends : line.thread stage = .sending item) :
    Flow stages total level state { line with
        queue := update line.queue (stage + 1) (line.queue (stage + 1) ++ [item])
        thread := update line.thread stage .waiting }
      taken (update sent (stage + 1) (sent (stage + 1) + 1)) := by
  have place := flow.thread stage lt
  rw [sends] at place
  obtain ⟨taken_eq, worker_eq, rfl⟩ := place
  obtain ⟨order, queue⟩ := flow.channel_send lt
  refine ⟨?_, ?_, order, queue, ?_, flow.received, flow.collected⟩
  · rw [update_of_ne (Nat.succ_ne_zero stage).symm]
    exact flow.feed
  · rw [update_of_ne (Nat.succ_ne_zero stage).symm]
    exact flow.fed
  · apply flow.thread_of_elsewhere stage fun j other => by simp [other]
    simp only [update_self]
    exact ⟨taken_eq, worker_eq⟩

lemma Flow.collectOne (next : line.queue stages = item :: rest) :
    Flow stages total level state { line with
        queue := update line.queue stages rest
        collected := line.collected ++ [item] }
      (update taken stages (taken stages + 1)) sent := by
  obtain ⟨rfl, order, queue⟩ := flow.channel_take le_rfl next
  refine ⟨flow.feed, flow.fed, order, queue, ?_, ?_, ?_⟩
  · intro stage inside
    rw [update_of_ne (Nat.ne_of_lt inside)]
    exact flow.thread stage inside
  · intro stage inside
    rw [update_of_ne (Nat.ne_of_lt inside)]
    exact flow.received stage inside
  · rw [update_self, flow.collected, between_concat (Nat.zero_le _)]

/-- A stage that sends finds its receiver. -/
lemma Flow.receiver_there (lt : stage < stages)
    (sends : line.thread stage = .sending item) :
    ¬ line.ReceiverGone stages (stage + 1) := by
  intro gone
  have place := flow.thread stage lt
  rw [sends] at place
  obtain ⟨taken_eq, _, _⟩ := place
  have all := flow.taken_of_gone gone
  have order := flow.order (stage + 1) lt
  have before := flow.order stage (le_of_lt lt)
  have bound := flow.sent_le (le_of_lt lt)
  omega

/-- The feeder finds its receiver. -/
lemma Flow.first_there (left : line.feed ≠ []) : ¬ line.ReceiverGone stages 0 := by
  intro gone
  have all := flow.taken_of_gone gone
  have order := flow.order 0 (Nat.zero_le _)
  refine left ?_
  rw [flow.feed, between_eq_nil]
  omega

/-- Every worker takes every item that comes to it. -/
lemma Flow.works (works : Works stages total process level state)
    (lt : stage < stages) (holds : line.thread stage = .holding item) :
    process stage (line.worker stage) item = .ok (state stage (sent (stage + 1) + 1),
        level (stage + 1) (sent (stage + 1))) := by
  have place := flow.thread stage lt
  rw [holds] at place
  obtain ⟨taken_eq, worker_eq, rfl⟩ := place
  have order := flow.order stage (le_of_lt lt)
  have bound := flow.sent_le (le_of_lt lt)
  rw [worker_eq]
  exact works stage lt _ (by omega)

/-- No worker refuses an item. -/
lemma Flow.not_refused (works : Works stages total process level state) :
    ¬ Refusal stages process line after := by
  rintro ⟨inside, holds, refused, worker⟩
  rw [flow.works works inside holds] at refused
  cases refused

/-- No thread has failed. -/
lemma Flow.not_failed (lt : stage < stages) (error : ε) : line.thread stage ≠ .failed error := by
  intro thread
  have place := flow.thread stage lt
  rw [thread] at place
  exact place

/-- What a stage has taken are the first items, in their order. -/
lemma Flow.received_isPrefix (lt : stage < stages) :
    line.received stage <+: between level stage 0 total := by
  have order := flow.order stage (le_of_lt lt)
  have bound := flow.sent_le (le_of_lt lt)
  refine ⟨between level stage (taken stage) total, ?_⟩
  rw [flow.received stage lt, between, between, between, ← map_append]
  have ranges : List.range' 0 (taken stage) ++
      List.range' (0 + 1 * taken stage) (total - taken stage) =
      List.range' 0 (taken stage + (total - taken stage)) :=
    List.range'_append
  rw [zero_add, one_mul, Nat.add_sub_cancel' (by omega)] at ranges
  rw [Nat.sub_zero, Nat.sub_zero, ranges]

/-- Where all threads have ended, all items have come through all stages. -/
lemma Flow.finished (finished : line.Finished stages) :
    line.collected = between level stages 0 total ∧
      ∀ stage < stages, line.worker stage = state stage total ∧
        line.received stage = between level stage 0 total := by
  have last : taken stages = total := by
    have gone : line.SenderGone stages := by
      cases stages with
      | zero => exact finished.feed
      | succ stage => exact finished.threads stage (Nat.lt_succ_self stage)
    have all := flow.sent_of_gone le_rfl gone
    have empty := (flow.queue stages le_rfl).symm.trans finished.collected
    rw [between_eq_nil] at empty
    have order := flow.order stages le_rfl
    omega
  refine ⟨by rw [flow.collected, last], fun stage inside => ?_⟩
  obtain ⟨taken_eq, _, worker_eq⟩ := flow.done_of_ended inside (finished.threads stage inside)
  exact ⟨worker_eq, by rw [flow.received stage inside, taken_eq]⟩

/-! ## No schedule gets stuck -/

section
variable (works : Works stages total process level state)
include works

section
variable (deep : 0 < depth) (stuck : ∀ after, ¬ Move stages depth process line after)
include deep stuck

/-- Where no thread can move, no stage has an item or waits for one that is
there. -/
lemma Flow.idle_of_stuck (lt : channel ≤ stages) : line.queue channel = [] := by
  -- from the collector back to the first stage
  induction steps : stages - channel generalizing channel with
  | zero =>
    have same : channel = stages := by omega
    subst same
    cases queue : line.queue channel with
    | nil => rfl
    | cons item rest => exact absurd (.collect queue) (stuck _)
  | succ left ih =>
    have inside' : channel < stages := by omega
    have next : line.queue (channel + 1) = [] := ih (by omega) (by omega)
    cases thread : line.thread channel with
    | waiting =>
      cases queue : line.queue channel with
      | nil => rfl
      | cons item rest => exact absurd (.take inside' thread queue) (stuck _)
    | holding item =>
      exact absurd (.work inside' thread (flow.works works inside' thread)) (stuck _)
    | sending item =>
      exact absurd (.send inside' thread (by rw [next]; exact deep)
        (flow.receiver_there inside' thread)) (stuck _)
    | done =>
      have gone : line.ReceiverGone stages channel := ⟨inside', by rw [thread]; rfl⟩
      have all := flow.taken_of_gone gone
      have bound := flow.sent_le lt
      rw [flow.queue channel lt, between_eq_nil]
      omega
    | failed error =>
      have place := flow.thread channel inside'
      rw [thread] at place
      exact place.elim

/-- A stage whose sender has gone has ended, where no thread can move. -/
lemma Flow.ended_of_stuck (lt : stage < stages) (gone : line.SenderGone stage) :
    (line.thread stage).ended = true := by
  have empty := flow.idle_of_stuck works deep stuck (le_of_lt lt)
  have next : line.queue (stage + 1) = [] := flow.idle_of_stuck works deep stuck lt
  cases thread : line.thread stage with
  | waiting => exact absurd (.close lt thread empty gone) (stuck _)
  | holding item =>
    exact absurd (.work lt thread (flow.works works lt thread)) (stuck _)
  | sending item =>
    exact absurd (.send lt thread (by rw [next]; exact deep)
      (flow.receiver_there lt thread)) (stuck _)
  | done | failed error => rfl

end

/-- Some thread can move, or all have ended. -/
lemma Flow.progress (deep : 0 < depth) :
    line.Finished stages ∨ ∃ after, Move stages depth process line after := by
  by_cases stuck : ∀ after, ¬ Move stages depth process line after
  · left
    have idle {channel : Nat} (lt : channel ≤ stages) := flow.idle_of_stuck works deep stuck lt
    have fed : line.feed = [] := by
      by_contra left
      obtain ⟨item, rest, feed⟩ := exists_cons_of_ne_nil left
      exact stuck _ (.feed feed (by rw [idle (Nat.zero_le _)]; exact deep) (flow.first_there left))
    -- from the first stage on, each finds that its sender has gone
    have ended (stage : Nat) (lt : stage < stages) : (line.thread stage).ended = true := by
      induction stage with
      | zero => exact flow.ended_of_stuck works deep stuck lt fed
      | succ stage ih =>
        exact flow.ended_of_stuck works deep stuck lt (ih (by omega))
    exact ⟨fed, ended, idle le_rfl⟩
  · right
    simpa using stuck

end

end Facts

/-- Every move keeps everything in its place. -/
lemma Move.flow (works : Works stages total process level state) {line after : Conveyor σ α ε}
    (move : Move stages depth process line after) {taken sent : Nat → Nat}
    (flow : Flow stages total level state line taken sent) :
    ∃ taken sent, Flow stages total level state after taken sent := by
  cases move with
  | feed next => exact ⟨_, _, flow.feedOne next⟩
  | feedGone left gone => exact absurd gone (flow.first_there left)
  | take inside waits next => exact ⟨_, _, flow.takeOne inside waits next⟩
  | @close stage inside waits empty gone =>
    have place := flow.thread stage inside
    rw [waits] at place
    obtain ⟨taken_eq, worker_eq⟩ := place
    have last := (flow.queue stage (le_of_lt inside)).symm.trans empty
    rw [between_eq_nil, flow.sent_of_gone (le_of_lt inside) gone] at last
    have bound : sent (stage + 1) ≤ total := flow.sent_le inside
    have all : sent (stage + 1) = total := by omega
    refine ⟨taken, sent, { flow with thread := ?_ }⟩
    apply flow.thread_of_elsewhere stage fun j other => by simp [other]
    simp only [update_self]
    exact ⟨taken_eq.trans all, all, all ▸ worker_eq⟩
  | @work stage item worker result inside holds worked =>
    have place := flow.thread stage inside
    rw [holds] at place
    have right := worked.symm.trans (flow.works works inside holds)
    cases right
    refine ⟨taken, sent, { flow with thread := ?_ }⟩
    apply flow.thread_of_elsewhere stage fun j other => by simp [other]
    simp only [update_self]
    exact ⟨place.1, rfl, rfl⟩
  | send inside sends => exact ⟨_, _, flow.sendOne inside sends⟩
  | sendGone inside sends gone => exact absurd gone (flow.receiver_there inside sends)
  | collect next => exact ⟨_, _, flow.collectOne next⟩

end Flow

/-! ## All schedules end -/

/-- How many moves a thread and the item in its hands still have. -/
def threadWeight (stages stage : Nat) : Thread α ε → Nat
  | .waiting => 1
  | .holding _ => 3 * (stages - stage) + 1
  | .sending _ => 3 * (stages - stage)
  | .done | .failed _ => 0

/-- How many moves the items in a channel still have. -/
def queueWeight (stages channel : Nat) (items : List α) : Nat :=
  items.length * (3 * (stages - channel) + 1)

section Weights
variable (stages stage : Nat) (item : α) (items : List α)

@[simp]
lemma queueWeight_cons : queueWeight stages stage (item :: items) =
      queueWeight stages stage items + (3 * (stages - stage) + 1) := by
  rw [queueWeight, length_cons, Nat.succ_mul, queueWeight]

@[simp]
lemma queueWeight_concat : queueWeight stages stage (items ++ [item]) =
      queueWeight stages stage items + (3 * (stages - stage) + 1) := by
  rw [queueWeight, length_append, length_singleton, Nat.succ_mul, queueWeight]

end Weights

/-- How many moves there can still be. -/
def weight (stages : Nat) (conveyor : Conveyor σ α ε) : Nat :=
  conveyor.feed.length * (3 * stages + 2) + (∑ channel ∈ Finset.range (stages + 1),
      queueWeight stages channel (conveyor.queue channel)) +
    ∑ stage ∈ Finset.range stages, threadWeight stages stage (conveyor.thread stage)

/-- A sum of which one term changes. -/
lemma sum_update {β : Type*} {count place : Nat} (lt : place < count)
    (size : Nat → β → Nat) (items : Nat → β) (new : β) :
    (∑ i ∈ Finset.range count, size i (update items place new i)) + size place (items place) =
    (∑ i ∈ Finset.range count, size i (items i)) + size place new := by
  have mem := Finset.mem_range.mpr lt
  rw [← Finset.add_sum_erase _ _ mem, ← Finset.add_sum_erase _ _ mem, update_self]
  have others : ∑ i ∈ (Finset.range count).erase place, size i (update items place new i) =
      ∑ i ∈ (Finset.range count).erase place, size i (items i) := by
    refine Finset.sum_congr rfl fun i here => ?_
    rw [update_of_ne (Finset.ne_of_mem_erase here)]
  rw [others]
  omega

/-- Every move leaves fewer moves. -/
lemma Move.weight_lt {stages depth : Nat} {process : Nat → σ → α → Except ε (σ × α)}
    {line after : Conveyor σ α ε} (move : Move stages depth process line after) :
    after.weight stages < line.weight stages := by
  have channels {channel : Nat} (lt : channel < stages + 1) (new) :=
    sum_update lt (queueWeight stages) line.queue new
  have threads {stage : Nat} (lt : stage < stages) (new) :=
    sum_update lt (threadWeight stages) line.thread new
  cases move with
  | @feed item rest next room there =>
    have queue := channels (Nat.succ_pos _) (line.queue 0 ++ [item])
    rw [queueWeight_concat] at queue
    simp only [weight, next, length_cons, Nat.succ_mul]
    omega
  | feedGone left gone =>
    have size := length_pos_iff.mpr left
    have pos : 0 < line.feed.length * (3 * stages + 2) := Nat.mul_pos size (by omega)
    simp only [weight, length_nil, Nat.zero_mul]
    omega
  | @take stage item rest lt waits next =>
    have queue := channels (Nat.lt_succ_of_lt lt) rest
    have thread := threads lt (.holding item)
    rw [next, queueWeight_cons] at queue
    rw [waits, threadWeight, threadWeight] at thread
    simp only [weight]
    omega
  | @close stage lt waits empty gone =>
    have thread := threads lt .done
    rw [waits, threadWeight, threadWeight] at thread
    simp only [weight]
    omega
  | @work stage item worker result lt holds worked =>
    have thread := threads lt (.sending result)
    rw [holds, threadWeight, threadWeight] at thread
    simp only [weight]
    omega
  | @send stage item lt sends room there =>
    have queue := channels (show stage + 1 < stages + 1 by omega) (line.queue (stage + 1) ++ [item])
    have thread := threads lt .waiting
    rw [queueWeight_concat] at queue
    rw [sends, threadWeight, threadWeight] at thread
    simp only [weight]
    omega
  | @sendGone stage item lt sends gone =>
    have thread := threads lt .done
    rw [sends, threadWeight, threadWeight] at thread
    simp only [weight]
    omega
  | @collect item rest next =>
    have queue := channels (Nat.lt_succ_self stages) rest
    rw [next, queueWeight_cons] at queue
    simp only [weight]
    omega

end Conveyor

end Joshua.Foundation
