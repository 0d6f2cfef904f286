/-
Module: Joshua.Foundation.Machine
Purpose: Loops whose rounds either go on with a new state or stop with a
  result, run to the end by a measure that every round lowers; readers of a
  text that is still arriving; unsigned 64-bit counters as a checked build
  runs them, and computations that check their inputs, and return, refuse with
  a message, or stop at arithmetic that was not checked.
Trusted boundary: none
-/
import Mathlib.Algebra.GroupWithZero.Nat
import Mathlib.Data.Fin.Tuple.Basic

namespace Joshua.Foundation

section
section
variable {σ ρ : Type*}

/-- What one round of a loop does. -/
inductive Round (σ ρ : Type*)
  | next (state : σ)
  | stop (result : ρ)

/-- Run a loop for at most `fuel` rounds. -/
def loop (round : σ → Round σ ρ) : Nat → σ → Option ρ
  | 0, _ => none
  | fuel + 1, state =>
    match round state with
    | .stop result => some result
    | .next state => loop round fuel state

/-- Every round that goes on lowers the measure. -/
def Decreases (round : σ → Round σ ρ) (measure : σ → Nat) : Prop :=
  ∀ state later, round state = .next later → measure later < measure state

variable {round : σ → Round σ ρ} {measure : σ → Nat}

/-- More rounds do not change a result. -/
lemma loop_mono {result : ρ} : ∀ {fuel more : Nat} {state : σ}, fuel ≤ more →
      loop round fuel state = some result →
      loop round more state = some result := by
  intro fuel
  induction fuel with
  | zero =>
    intro more state _ stopped
    simp [loop] at stopped
  | succ fuel ih =>
    intro more state less stopped
    obtain ⟨extra, rfl⟩ : ∃ extra, more = extra + 1 := ⟨more - 1, by omega⟩
    cases step : round state with
    | stop value => simpa [loop, step] using stopped
    | next later =>
      simp only [loop, step] at stopped ⊢
      exact ih (Nat.le_of_succ_le_succ less) stopped

/-- A loop that keeps an invariant and lowers a measure as long as it holds
ends, within as many rounds, in what the rounds that stop give. -/
lemma loop_rule {invariant : σ → Prop} {post : ρ → Prop}
    (next : ∀ state later, invariant state → round state = .next later →
      invariant later ∧ measure later < measure state)
    (stop : ∀ state result, invariant state → round state = .stop result → post result) :
    ∀ (fuel : Nat) (state : σ), invariant state → measure state < fuel →
      ∃ result, loop round fuel state = some result ∧ post result := by
  intro fuel
  induction fuel with
  | zero =>
    intro state _ enough
    exact absurd enough (Nat.not_lt_zero _)
  | succ fuel ih =>
    intro state holds enough
    cases step : round state with
    | stop result => exact ⟨result, by simp [loop, step], stop state result holds step⟩
    | next later =>
      obtain ⟨kept, lower⟩ := next state later holds step
      obtain ⟨result, returned, good⟩ := ih later kept
        (Nat.lt_of_lt_of_le lower (Nat.le_of_lt_succ enough))
      exact ⟨result, by simpa [loop, step] using returned, good⟩

lemma loop_isSome (decreases : Decreases round measure) (fuel : Nat) (state : σ)
    (enough : measure state < fuel) : (loop round fuel state).isSome := by
  obtain ⟨result, returned, _⟩ := @loop_rule _ _ round measure (fun _ => True) (fun _ => True)
    (fun state later _ step => ⟨trivial, decreases state later step⟩) (fun _ _ _ _ => trivial)
    fuel state trivial enough
  rw [returned]
  rfl

namespace Loop

/-- The result of a loop that ends. -/
def run (round : σ → Round σ ρ) (measure : σ → Nat)
    (decreases : Decreases round measure) (state : σ) : ρ :=
  (loop round (measure state + 1) state).get (loop_isSome decreases _ state (Nat.lt_succ_self _))

section Equations
variable {round : σ → Round σ ρ} {measure : σ → Nat} (decreases : Decreases round measure)

lemma run_spec (state : σ) : loop round (measure state + 1) state =
      some (run round measure decreases state) :=
  (Option.some_get _).symm

variable {state : σ}

lemma run_stop {result : ρ} (step : round state = .stop result) :
    run round measure decreases state = result := by
  have spec := run_spec decreases state
  simpa [loop, step] using spec.symm

lemma run_next {later : σ} (step : round state = .next later) :
    run round measure decreases state = run round measure decreases later := by
  have spec := run_spec decreases state
  simp only [loop, step] at spec
  have lower := decreases state later step
  have same := loop_mono lower (run_spec decreases later)
  exact Option.some.inj (spec.symm.trans same)

/-- An invariant of the rounds that gives the postcondition where the loop
stops gives it for the whole loop. -/
lemma run_rule {invariant : σ → Prop} {post : ρ → Prop}
    (next : ∀ state later, invariant state → round state = .next later → invariant later)
    (stop : ∀ state result, invariant state → round state = .stop result → post result)
    (initial : invariant state) : post (run round measure decreases state) := by
  obtain ⟨result, returned, good⟩ := loop_rule
    (fun state later holds step => ⟨next state later holds step, decreases state later step⟩)
    stop (measure state + 1) state initial (Nat.lt_succ_self _)
  rw [run_spec decreases, Option.some.injEq] at returned
  rw [returned]
  exact good

end Equations

end Loop

end

variable {α β σ : Type*}

/-- What a reader can say of the text so far: more is needed, the text is not
what is read, or a value has been read and text is left. -/
inductive Outcome (α β : Type*)
  | wait
  | fail
  | done (value : β) (rest : List α)
deriving DecidableEq

/-- The second outcome is what the first one must become when `tail` follows
the text; nothing is promised for a reader that waits. -/
def Outcome.Later (tail : List α) : Outcome α β → Outcome α β → Prop
  | .wait, _ => True
  | .fail, later => later = .fail
  | .done value rest, later => later = .done value (rest ++ tail)

/-- A reader whose decisions are final. -/
def Incremental (read : List α → Outcome α β) : Prop :=
  ∀ text tail, Outcome.Later tail (read text) (read (text ++ tail))

namespace Incremental

variable {read : List α → Outcome α β}

lemma of_done (final : Incremental read) {text rest : List α} {value : β}
    (found : read text = .done value rest) (tail : List α) :
    read (text ++ tail) = .done value (rest ++ tail) := by
  have later := final text tail
  rw [found] at later
  exact later

lemma of_fail (final : Incremental read) {text : List α} (refused : read text = .fail)
    (tail : List α) : read (text ++ tail) = .fail := by
  have later := final text tail
  rw [refused] at later
  exact later

end Incremental

/-- What a round of a reader's loop must become when `tail` follows the
text: it goes on, or decides, in the same way. -/
def Round.Later (tail : List α) : Round (σ × List α) (Outcome α β) →
      Round (σ × List α) (Outcome α β) → Prop
  | .next (state, rest), later => later = .next (state, rest ++ tail)
  | .stop .wait, _ => True
  | .stop .fail, later => later = .stop .fail
  | .stop (.done value rest), later => later = .stop (.done value (rest ++ tail))

/-- A loop over a state and the text left is a final reader when its rounds
are. -/
lemma incremental_run {round : σ × List α → Round (σ × List α) (Outcome α β)}
    {measure : σ × List α → Nat} (decreases : Decreases round measure)
    (rounds : ∀ state text tail,
      Round.Later tail (round (state, text)) (round (state, text ++ tail))) (state : σ) :
    Incremental fun text => Loop.run round measure decreases (state, text) := by
  intro text tail
  dsimp only
  induction size : measure (state, text) using Nat.strongRecOn generalizing state text with
  | ind size ih =>
    have same := rounds state text tail
    cases step : round (state, text) with
    | stop outcome =>
      rw [step] at same
      rw [Loop.run_stop decreases step]
      cases outcome with
      | wait => trivial
      | fail | done value rest => exact Loop.run_stop decreases same
    | next later =>
      obtain ⟨later, rest⟩ := later
      rw [step] at same
      rw [Loop.run_next decreases step, Loop.run_next decreases same]
      exact ih _ (size ▸ decreases _ _ step) later rest rfl

/-- A run of letters that has ended stays as it is. -/
lemma dropWhile_extend {p : α → Bool} {text : List α} (ended : text.dropWhile p ≠ [])
    (tail : List α) : (text ++ tail).dropWhile p = text.dropWhile p ++ tail := by
  rw [List.dropWhile_append, if_neg (by simpa using ended)]

end

/-- Ways a computation can fail to return: a sum that does not fit, a
difference below zero, a loop that makes no progress, an index or a slice
outside its text or inside a character. -/
inductive Fault
  | overflow
  | underflow
  | spin
  | range
deriving Repr, DecidableEq

/-- The first value an unsigned 64-bit counter cannot hold. -/
def u64Limit : Nat := 2 ^ 64

/-- Addition on a 64-bit counter. -/
def u64Add (left right : Nat) : Except Fault Nat :=
  if left + right < u64Limit then .ok (left + right) else .error .overflow

/-- Subtraction on a 64-bit counter. -/
def u64Sub (left right : Nat) : Except Fault Nat :=
  if right ≤ left then .ok (left - right) else .error .underflow

lemma u64Add_eq_ok {left right result : Nat} : u64Add left right = .ok result ↔
      left + right < u64Limit ∧ left + right = result := by
  unfold u64Add
  split <;> simp_all

lemma u64Sub_eq_ok {left right result : Nat} :
    u64Sub left right = .ok result ↔ right ≤ left ∧ left - right = result := by
  unfold u64Sub
  split <;> simp_all

lemma u64Sub_of_le {left right : Nat} (fits : right ≤ left) :
    u64Sub left right = .ok (left - right) := by
  simp [u64Sub, fits]

section
variable {ε α β : Type*} {first : Except ε α}

/-- Peel the first step off a computation that returned. -/
lemma bind_eq_ok {next : α → Except ε β} {result : β} :
    first.bind next = .ok result ↔ ∃ value, first = .ok value ∧ next value = .ok result := by
  cases first <;> simp [Except.bind]

lemma map_eq_ok {f : α → β} {result : β} :
    first.map f = .ok result ↔ ∃ value, first = .ok value ∧ f value = result := by
  cases first <;> simp [Except.map]

end

/-!
`Checked safe post` is the triple of a computation on counters relative to a
condition: an overflow is possible only where `safe` fails, the other faults
not at all, and what is returned satisfies `post` in any case.
-/

section Checked
variable {α β : Type*} {safe : Prop}

def Checked (safe : Prop) (post : α → Prop) : Except Fault α → Prop
  | .error .overflow => ¬ safe
  | .error .underflow => False
  | .error .spin => False
  | .error .range => False
  | .ok value => post value

namespace Checked

variable {result : Except Fault α} {post first : α → Prop}

lemma imp {second : α → Prop} (checked : Checked safe first result)
    (weaker : ∀ value, first value → second value) : Checked safe second result := by
  match result, checked with
  | .error .overflow, checked => exact checked
  | .ok value, checked => exact weaker value checked

lemma safe_imp {stronger : Prop} (checked : Checked safe post result)
    (strong : stronger → safe) : Checked stronger post result := by
  match result, checked with
  | .error .overflow, checked => exact fun holds => checked (strong holds)
  | .ok _, checked => exact checked

lemma bind {m : α → Prop} {post : β → Prop} {next : α → Except Fault β}
    (checked : Checked safe m result)
    (continued : ∀ value, m value → Checked safe post (next value)) :
    Checked safe post (result.bind next) := by
  match result, checked with
  | .error .overflow, checked => exact checked
  | .ok value, checked => exact continued value checked

lemma bind_ok {value : α} {post : β → Prop} {next : α → Except Fault β}
    (returned : result = .ok value) (continued : Checked safe post (next value)) :
    Checked safe post (result.bind next) := by
  rwa [returned]

lemma map {post : β → Prop} {f : α → β} (checked : Checked safe first result)
    (mapped : ∀ value, first value → post (f value)) : Checked safe post (result.map f) := by
  match result, checked with
  | .error .overflow, checked => exact checked
  | .ok value, checked => exact mapped value checked

/-- What is known of a returned value. -/
lemma post_of_eq_ok {value : α} (checked : Checked safe post result)
    (returned : result = .ok value) : post value := by
  subst returned
  exact checked

/-- The result may be named in what follows. -/
lemma with_eq (checked : Checked safe post result) :
    Checked safe (fun value => result = .ok value ∧ post value) result := by
  match result, checked with
  | .error .overflow, checked => exact checked
  | .ok value, checked => exact ⟨rfl, checked⟩

/-- A fault is passed on whatever the postcondition. -/
lemma of_eq_error {second : β → Prop} {fault : Fault} (checked : Checked safe first result)
    (failed : result = .error fault) : Checked safe second (.error fault) := by
  subst failed
  cases fault <;> exact checked

/-- A safe computation returns. -/
lemma exists_of_safe (checked : Checked safe post result) (holds : safe) :
    ∃ value, result = .ok value ∧ post value := by
  match result, checked with
  | .error .overflow, checked => exact absurd holds checked
  | .ok value, checked => exact ⟨value, rfl, checked⟩

/-- The only fault a checked computation can have is an overflow. -/
lemma fault_eq_overflow {fault : Fault} (checked : Checked safe post result)
    (failed : result = .error fault) : fault = .overflow := by
  subst failed
  cases fault with
  | overflow => rfl
  | underflow | spin | range => exact checked.elim

lemma u64Add {left right : Nat} (fits : safe → left + right < u64Limit) :
    Checked safe (fun sum => sum = left + right) (Foundation.u64Add left right) := by
  unfold Foundation.u64Add
  split
  · rfl
  · rename_i isOver
    exact fun holds => isOver (fits holds)

lemma u64Sub {left right : Nat} (fits : right ≤ left) :
    Checked safe (fun difference => difference = left - right) (Foundation.u64Sub left right) := by
  rw [u64Sub_of_le fits]
  rfl

end Checked

end Checked

open List

/-- Why a computation does not return: it refused its input, or arithmetic
that was not checked did not fit. -/
inductive Halt
  | panic (fault : Fault)
  | refused (message : String)
deriving Repr, DecidableEq

def ensure (condition : Bool) (message : String) : Except Halt Unit :=
  if condition then .ok () else .error (.refused message)

lemma ensure_eq_ok {condition : Bool} {msg : String} {done : Unit} :
    ensure condition msg = .ok done ↔ condition = true := by
  cases condition <;> simp [ensure]

/-! ## Arithmetic on 64-bit numbers, checked and not -/

section
variable (left right : Nat)

def checkedAdd (message : String) : Except Halt Nat :=
  if left + right < u64Limit then .ok (left + right)
  else .error (.refused message)

def checkedSub (message : String) : Except Halt Nat :=
  if right ≤ left then .ok (left - right) else .error (.refused message)

def checkedMul (message : String) : Except Halt Nat :=
  if left * right < u64Limit then .ok (left * right)
  else .error (.refused message)

def plainAdd : Except Halt Nat :=
  if left + right < u64Limit then .ok (left + right)
  else .error (.panic .overflow)

def plainSub : Except Halt Nat :=
  if right ≤ left then .ok (left - right) else .error (.panic .underflow)

def plainMul : Except Halt Nat :=
  if left * right < u64Limit then .ok (left * right)
  else .error (.panic .overflow)

end

/-! ## The triple -/

section Returns
variable {α β : Type*}

/-- The computation does not panic, and what it returns satisfies `post`. -/
def Returns (post : α → Prop) : Except Halt α → Prop
  | .ok value => post value
  | .error (.refused _) => True
  | .error (.panic _) => False

namespace Returns

variable {result : Except Halt α}

lemma imp {first second : α → Prop} (returns : Returns first result)
    (weaker : ∀ value, first value → second value) : Returns second result := by
  match result, returns with
  | .ok value, returns => exact weaker value returns
  | .error (.refused _), _ => trivial

lemma bind {m : α → Prop} {post : β → Prop} {next : α → Except Halt β}
    (returns : Returns m result) (continued : ∀ value, m value → Returns post (next value)) :
    Returns post (result.bind next) := by
  match result, returns with
  | .ok value, returns => exact continued value returns
  | .error (.refused _), _ => trivial

lemma post_of_eq_ok {post : α → Prop} {value : α} (returns : Returns post result)
    (same : result = .ok value) : post value := by
  subst same
  exact returns

lemma not_panic {post : α → Prop} (returns : Returns post result) (fault : Fault) :
    result ≠ .error (.panic fault) := by
  rintro rfl
  exact returns

lemma ensure {condition : Bool} {msg : String} :
    Returns (fun _ => condition = true) (ensure condition msg) := by
  cases condition
  · trivial
  · exact rfl

lemma checkedAdd {left right : Nat} {msg : String} :
    Returns (fun value => value = left + right ∧ left + right < u64Limit)
      (checkedAdd left right msg) := by
  rw [Foundation.checkedAdd]
  split
  next fits => exact ⟨rfl, fits⟩
  next => trivial

lemma checkedSub {left right : Nat} {msg : String} :
    Returns (fun value => value + right = left) (checkedSub left right msg) := by
  rw [Foundation.checkedSub]
  split
  next less => exact Nat.sub_add_cancel less
  next => trivial

lemma checkedMul {left right : Nat} {msg : String} :
    Returns (fun value => value = left * right ∧ left * right < u64Limit)
      (checkedMul left right msg) := by
  rw [Foundation.checkedMul]
  split
  next fits => exact ⟨rfl, fits⟩
  next => trivial

lemma plainAdd {left right : Nat} (fits : left + right < u64Limit) :
    Returns (fun value => value = left + right) (plainAdd left right) := by
  rw [Foundation.plainAdd, if_pos fits]
  exact rfl

lemma plainSub {left right : Nat} (less : right ≤ left) :
    Returns (fun value => value + right = left) (plainSub left right) := by
  rw [Foundation.plainSub, if_pos less]
  exact Nat.sub_add_cancel less

lemma plainMul {left right : Nat} (fits : left * right < u64Limit) :
    Returns (fun value => value = left * right) (plainMul left right) := by
  rw [Foundation.plainMul, if_pos fits]
  exact rfl

/-- A fold keeps an invariant over the items it has passed. -/
lemma foldlM {f : β → α → Except Halt β} {items : List α} {start : β} {I : List α → β → Prop}
    (initial : I [] start)
    (step : ∀ done item rest state, items = done ++ item :: rest → I done state →
      Returns (I (done ++ [item])) (f state item)) : Returns (I items) (items.foldlM f start) := by
  -- by induction on the items still to come
  suffices general : ∀ (rest done : List α) (state : β), items = done ++ rest → I done state →
      Returns (I items) (rest.foldlM f state) from
    general items [] start rfl initial
  intro rest
  induction rest with
  | nil =>
    intro done state whole holds
    rw [append_nil] at whole
    rw [whole]
    exact holds
  | cons item rest ih =>
    intro done state whole holds
    rw [foldlM_cons]
    refine .bind (step done item rest state whole holds) ?_
    intro next kept
    refine ih (done ++ [item]) next ?_ kept
    rw [whole, append_assoc]
    rfl

end Returns

/-! ## One result for each index -/

/-- Compute a value for every index, in order. -/
def forRanks {α : Type} : {count : Nat} → (Fin count → Except Halt α) → Except Halt (Fin count → α)
  | 0, _ => .ok Fin.elim0
  | _ + 1, compute => do
      let first ← compute 0
      let rest ← forRanks fun rank => compute rank.succ
      return Fin.cons first rest

lemma Returns.forRanks {α : Type} {count : Nat} {compute : Fin count → Except Halt α}
    {post : Fin count → α → Prop} (each : ∀ rank, Returns (post rank) (compute rank)) :
    Returns (fun values => ∀ rank, post rank (values rank)) (forRanks compute) := by
  induction count with
  | zero => exact fun rank => rank.elim0
  | succ count ih =>
    refine .bind (each 0) ?_
    intro first holds
    refine .bind (ih fun rank => each rank.succ) ?_
    intro rest others
    exact fun rank => Fin.cases holds others rank

/-- The items that pass a test that may halt. -/
def filterGuarded {α : Type} (test : α → Except Halt Bool) : List α → Except Halt (List α)
  | [] => .ok []
  | item :: rest => do
      let keep ← test item
      let kept ← filterGuarded test rest
      return if keep then item :: kept else kept

/-! ## Success -/

/-- The computation returns, and what it returns satisfies `post`. -/
def Succeeds (post : α → Prop) (result : Except Halt α) : Prop :=
  ∃ value, result = .ok value ∧ post value

namespace Succeeds

variable {result : Except Halt α}

lemma imp {first second : α → Prop} (succeeds : Succeeds first result)
    (weaker : ∀ value, first value → second value) : Succeeds second result := by
  obtain ⟨value, returned, holds⟩ := succeeds
  exact ⟨value, returned, weaker value holds⟩

lemma returns {post : α → Prop} (succeeds : Succeeds post result) : Returns post result := by
  obtain ⟨value, rfl, holds⟩ := succeeds
  exact holds

lemma bind {m : α → Prop} {post : β → Prop} {next : α → Except Halt β}
    (succeeds : Succeeds m result) (continued : ∀ value, m value → Succeeds post (next value)) :
    Succeeds post (result.bind next) := by
  obtain ⟨value, rfl, holds⟩ := succeeds
  exact continued value holds

lemma ensure {condition : Bool} {msg : String} (holds : condition = true) :
    Succeeds (fun _ => True) (ensure condition msg) :=
  ⟨(), if_pos holds, trivial⟩

lemma plainAdd {left right : Nat} (fits : left + right < u64Limit) :
    Succeeds (fun value => value = left + right) (plainAdd left right) :=
  ⟨_, if_pos fits, rfl⟩

lemma plainSub {left right : Nat} (less : right ≤ left) :
    Succeeds (fun value => value + right = left) (plainSub left right) :=
  ⟨_, if_pos less, Nat.sub_add_cancel less⟩

lemma foldlM {f : β → α → Except Halt β} {I : β → Prop} {items : List α} {start : β}
    (initial : I start) (step : ∀ item ∈ items, ∀ state, I state → Succeeds I (f state item)) :
    Succeeds I (items.foldlM f start) := by
  induction items generalizing start with
  | nil => exact ⟨start, rfl, initial⟩
  | cons item rest ih =>
    rw [foldlM_cons]
    refine .bind (step item mem_cons_self start initial) ?_
    intro next kept
    exact ih kept fun j mem => step j (mem_cons_of_mem _ mem)

lemma filterGuarded {α : Type} {test : α → Except Halt Bool} {items : List α}
    (each : ∀ item ∈ items, Succeeds (fun _ => True) (test item)) :
    Succeeds (fun kept => ∀ item ∈ kept, item ∈ items) (filterGuarded test items) := by
  induction items with
  | nil => exact ⟨[], rfl, fun item inside => inside⟩
  | cons item rest ih =>
    refine .bind (each item mem_cons_self) ?_
    intro keep _
    refine .bind (ih fun j inside => each j (mem_cons_of_mem _ inside)) ?_
    intro kept inside
    refine ⟨_, rfl, ?_⟩
    intro j mem
    cases keep with
    | false => exact mem_cons_of_mem _ (inside j mem)
    | true =>
      rcases mem_cons.mp mem with rfl | later
      · exact mem_cons_self
      · exact mem_cons_of_mem _ (inside j later)

end Succeeds

end Returns

end Joshua.Foundation
