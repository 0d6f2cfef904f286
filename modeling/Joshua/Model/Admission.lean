/-
Module: Joshua.Model.Admission
Purpose: The gate in front of the generations (`engine.rs`, `AdmissionGate`
  and `InFlightGuard`): permits up to a limit, a bounded queue of parked
  requests, and the memory check on both sides of the queue.
Trusted boundary: the gate's mutex makes each locked section one step; a wait
  on the condition variable ends at any time, with or without a notification;
  clock readings and the free memory are inputs of the steps.
-/
import Joshua.Model.Text
import Mathlib.Data.Finset.Card

namespace Joshua.Admission
open Joshua.Foundation

/-- Active permits and parked waiters. -/
structure AdmissionState where
  active : Nat
  waiting : Nat
deriving Repr, DecidableEq

inductive JoshuaError
  | overloaded (message : Text)
  | cancelled
deriving Repr, DecidableEq

/-- A reading of the monotonic clock or a duration, in nanoseconds. -/
abbrev Nanos := Nat

/-- The first time the clock cannot represent: its seconds are signed 64-bit
numbers. -/
def clockLimit : Nanos := 2 ^ 63 * 1000000000

/-- `Instant + Duration`, which panics on a time the clock cannot
represent. -/
def instantAdd (now wait : Nanos) : Except Fault Nanos :=
  if now + wait < clockLimit then .ok (now + wait) else .error .overflow

def decimal (value : Nat) : Text :=
  Nat.toDigits 10 value

/-- `LOW_MEM_FLOOR`. -/
def lowMemFloor : Nat := 1536 * 1024 * 1024

/-- `check_admission_memory`, with the free memory if the machine can say. -/
def checkAdmissionMemory : Option Nat → Except JoshuaError Unit
  | none => .ok ()
  | some free =>
    if free < lowMemFloor then
      .error (.overloaded ("low memory (".toList ++
        decimal (free / (1024 * 1024)) ++ " MiB free < ".toList ++
        decimal (lowMemFloor / (1024 * 1024)) ++
        " MiB floor); retry shortly".toList))
    else
      .ok ()

/-- `at_capacity`. -/
def atCapacity (most : Nat) (waited : Option Nanos) : JoshuaError :=
  let suffix : Text :=
    match waited with
    | none => []
    | some wait => " for ".toList ++ decimal (wait / 1000000) ++ " ms".toList
  .overloaded ("at capacity (".toList ++ decimal most ++
    " concurrent requests)".toList ++ suffix ++ "; retry shortly".toList)

def queueFull (deepest : Nat) : JoshuaError :=
  .overloaded ("admission queue is full (".toList ++ decimal deepest ++
    " waiting); retry shortly".toList)

/-- The configuration `acquire_with` is called with. -/
structure Gate where
  limit : UInt64
  queueDepth : UInt64

namespace Gate

variable (gate : Gate)

/-- `max.max(1)`. -/
def most : Nat := max gate.limit.toNat 1

/-- `queue_depth.max(1)`. -/
def deepest : Nat := max gate.queueDepth.toNat 1

/-- What a parked request sees at the head of its loop. -/
structure Poll where
  cancelled : Bool
  now : Nanos

/-- The head of the loop: whether the request gives up. -/
def givesUp (wait deadline : Nanos) (poll : Poll) : Option JoshuaError :=
  if poll.cancelled then some .cancelled
  else if deadline < poll.now then some (atCapacity gate.most (some wait))
  else none

/-- How a locked section of `acquire_with` ends. -/
inductive Outcome
  /-- A permit was counted for the request. -/
  | admitted
  | refused (error : JoshuaError)
  /-- The request waits on the condition variable. -/
  | parked (deadline : Nanos)

/-- The end of the loop: the request is no longer waiting. -/
def leave (state : AdmissionState) (outcome : Outcome) : Except Fault (AdmissionState × Outcome) :=
  (u64Sub state.waiting 1).map fun waiting => ({ state with waiting := waiting }, outcome)

/-- The first locked section of `acquire_with`, up to the first wait. -/
def arrive (wait started : Nanos) (poll : Poll) (state : AdmissionState) :
    Except Fault (AdmissionState × Outcome) :=
  if state.active < gate.most ∧ state.waiting = 0 then
    (u64Add state.active 1).map fun active => ({ state with active := active }, .admitted)
  else if wait = 0 then
    .ok (state, .refused (atCapacity gate.most none))
  else if gate.deepest ≤ state.waiting then
    .ok (state, .refused (queueFull gate.deepest))
  else
    (u64Add state.waiting 1).bind fun waiting =>
      (instantAdd started wait).bind fun deadline =>
        match gate.givesUp wait deadline poll with
        | some error => leave { state with waiting := waiting } (.refused error)
        | none => .ok ({ state with waiting := waiting }, .parked deadline)

/-- A locked section of a parked request, from the end of one wait to the next
wait or to the end of the loop. -/
def wake (wait deadline now : Nanos) (poll : Poll) (state : AdmissionState) :
    Except Fault (AdmissionState × Outcome) :=
  if state.active < gate.most then
    if deadline ≤ now then
      leave state (.refused (atCapacity gate.most (some wait)))
    else
      (u64Add state.active 1).bind fun active => leave { state with active := active } .admitted
  else
    match gate.givesUp wait deadline poll with
    | some error => leave state (.refused error)
    | none => .ok (state, .parked deadline)

end Gate

/-- The permit is returned: after a failed memory check and by the guard's
drop. -/
def giveBack (state : AdmissionState) : AdmissionState :=
  { state with active := state.active - 1 }

/-!
## Requests

A request is in the gate's queue, in the memory check after the queue, or in
the possession of its permit.  The wait and the deadline of a parked request
are its own.
-/

variable {Request : Type} [DecidableEq Request]

structure System (Request : Type) where
  state : AdmissionState
  parked : Finset Request
  wait : Request → Nanos
  deadline : Request → Nanos
  rechecking : Finset Request
  holding : Finset Request

def System.init : System Request :=
  { state := { active := 0, waiting := 0 }
    parked := ∅
    wait := fun _ => 0
    deadline := fun _ => 0
    rechecking := ∅
    holding := ∅ }

/-- The request has not called `acquire_with`, or its call or permit is
over. -/
def System.IsOutside (system : System Request) (request : Request) : Prop :=
  request ∉ system.parked ∧ request ∉ system.rechecking ∧ request ∉ system.holding

open Gate in
/-- One locked section, or one memory check, of one request. -/
inductive Step (gate : Gate) : System Request → System Request → Prop
  /-- Refused by the memory check before the lock is taken. -/
  | lowMemory {system : System Request} {request : Request} {free error}
      (isNew : system.IsOutside request)
      (low : checkAdmissionMemory free = .error error) : Step gate system system
  /-- Admitted on arrival. -/
  | admitted {system : System Request} {request : Request} {free}
      {wait started poll next} (isNew : system.IsOutside request)
      (enough : checkAdmissionMemory free = .ok ())
      (returns : gate.arrive wait started poll system.state = .ok (next, .admitted)) :
      Step gate system
        { system with
          state := next
          holding := insert request system.holding }
  /-- Refused on arrival, or between its arrival and its first wait. -/
  | refused {system : System Request} {request : Request} {free}
      {wait started poll next error} (isNew : system.IsOutside request)
      (enough : checkAdmissionMemory free = .ok ())
      (returns : gate.arrive wait started poll system.state = .ok (next, .refused error)) :
      Step gate system { system with state := next }
  | parks {system : System Request} {request : Request} {free}
      {wait started poll next deadline} (isNew : system.IsOutside request)
      (enough : checkAdmissionMemory free = .ok ())
      (returns : gate.arrive wait started poll system.state = .ok (next, .parked deadline)) :
      Step gate system
        { system with
          state := next
          parked := insert request system.parked
          wait := Function.update system.wait request wait
          deadline := Function.update system.deadline request deadline }
  /-- A waiter takes a permit and goes on to the memory check. -/
  | taken {system : System Request} {request : Request} {now poll next}
      (mine : request ∈ system.parked)
      (returns : gate.wake (system.wait request) (system.deadline request) now
        poll system.state = .ok (next, .admitted)) :
      Step gate system
        { system with
          state := next
          parked := system.parked.erase request
          rechecking := insert request system.rechecking }
  /-- A waiter times out or is cancelled. -/
  | expired {system : System Request} {request : Request} {now poll next error}
      (mine : request ∈ system.parked)
      (returns : gate.wake (system.wait request) (system.deadline request) now
        poll system.state = .ok (next, .refused error)) :
      Step gate system
        { system with
          state := next
          parked := system.parked.erase request }
  /-- A waiter waits again. -/
  | waits {system : System Request} {request : Request}
      {now poll next deadline} (mine : request ∈ system.parked)
      (returns : gate.wake (system.wait request) (system.deadline request) now
        poll system.state = .ok (next, .parked deadline)) :
      Step gate system { system with state := next }
  /-- The memory check after the queue passes. -/
  | rechecked {system : System Request} {request : Request} {free}
      (mine : request ∈ system.rechecking)
      (enough : checkAdmissionMemory free = .ok ()) :
      Step gate system
        { system with
          rechecking := system.rechecking.erase request
          holding := insert request system.holding }
  /-- The memory check after the queue fails: the permit goes back. -/
  | rejected {system : System Request} {request : Request} {free error}
      (mine : request ∈ system.rechecking)
      (low : checkAdmissionMemory free = .error error) :
      Step gate system
        { system with
          state := giveBack system.state
          rechecking := system.rechecking.erase request }
  /-- The guard drops. -/
  | drop {system : System Request} {request : Request}
      (mine : request ∈ system.holding) :
      Step gate system
        { system with
          state := giveBack system.state
          holding := system.holding.erase request }

/-- The states any interleaving of any requests leads to. -/
inductive Reached (gate : Gate) : System Request → Prop
  | init : Reached gate System.init
  | step {system later : System Request} (reached : Reached gate system)
      (step : Step gate system later) : Reached gate later

end Joshua.Admission
