/-
Module: Joshua.Foundation.Lockstep
Purpose: Programs that several ranks run side by side and that meet at
  reductions: each rank brings a vector and gets the combined one, provided
  that all ranks take part with the same length; otherwise the programs that
  wait there fail.
Trusted boundary: none
-/
import Mathlib.Algebra.GroupWithZero.Nat
import Mathlib.Data.Fintype.Basic

namespace Joshua.Foundation
open List

/-- A rank's program: it returns, fails, or brings values to a reduction and
goes on with the combined ones. -/
inductive Task (V R : Type)
  | ok (result : R)
  | fail (message : String)
  | reduce (values : List V) (next : List V → Task V R)

namespace Task

variable {V R Q : Type}

/-- One program after the other. -/
def bind : Task V R → (R → Task V Q) → Task V Q
  | ok result, continued => continued result
  | fail message, _ => fail message
  | reduce values next, continued => reduce values fun combined => (next combined).bind continued

/-- What a program that is not met by the others ends in. -/
def outcome : Task V R → Except String R
  | ok result => .ok result
  | fail message => .error message
  | reduce _ _ => .error "transport failed"

/-- The values a program brings to a reduction. -/
def brings : Task V R → Option (List V)
  | reduce values _ => some values
  | _ => none

/-- Go on with combined values. -/
def resume (combined : List V) : Task V R → Task V R
  | reduce _ next => next combined
  | task => task

end Task

section Run
variable {V R : Type} {ranks : Nat} (zero : V) (add : V → V → V)

/-- Combine vectors of one length in ascending rank order. -/
def combine (size : Nat) (vectors : Fin ranks → List V) : List V :=
  (List.finRange ranks).foldl
    (fun sums rank => List.zipWith add sums (vectors rank))
    (List.replicate size zero)

/-- The sum of all ranks' values at one place, in ascending rank order. -/
def sumAt (vectors : Fin ranks → List V) (place : Nat) : V :=
  (List.finRange ranks).foldl (fun sum rank => add sum ((vectors rank).getD place zero)) zero

variable {tasks : Fin ranks → Task V R} {vectors : Fin ranks → List V} {size : Nat}

lemma foldl_zipWith (vectors : Fin ranks → List V)
    (lengths : ∀ rank, (vectors rank).length = size) (done : List (Fin ranks)) (sums : Nat → V) :
    done.foldl (fun sums rank => List.zipWith add sums (vectors rank))
        ((List.range size).map sums) =
      (List.range size).map fun place => done.foldl
        (fun sum rank => add sum ((vectors rank).getD place zero))
        (sums place) := by
  induction done generalizing sums with
  | nil => rfl
  | cons rank rest ih =>
    have step : List.zipWith add ((List.range size).map sums)
        (vectors rank) = (List.range size).map fun place =>
          add (sums place) ((vectors rank).getD place zero) := by
      refine ext_getElem (by simp [lengths]) fun place left right => ?_
      have lt : place < (vectors rank).length := by
        rw [lengths]
        simpa using right
      simp [List.getElem?_eq_getElem lt]
    rw [foldl_cons, step, ih]
    rfl

/-- The combined vector place by place. -/
lemma combine_eq_map (lengths : ∀ rank, (vectors rank).length = size) :
    combine zero add size vectors = (List.range size).map (sumAt zero add vectors) := by
  have start : List.replicate size zero = (List.range size).map fun _ => zero := by
    rw [map_const', length_range]
  rw [combine, start, foldl_zipWith zero add vectors lengths]
  rfl

/-- The sum over one place of vectors that stand one behind the other. -/
lemma foldl_range_eq_sumAt {place : Nat} {inputs : List V}
    (places : ∀ rank : Fin ranks, inputs[rank.val * size + place]? = (vectors rank)[place]?) :
    (List.range ranks).foldl
        (fun sum rank => add sum (inputs.getD (rank * size + place) zero))
        zero = sumAt zero add vectors place := by
  rw [sumAt, ← map_coe_finRange_eq_range, foldl_map]
  congr 1
  funext sum rank
  rw [getD_eq_getElem?_getD, places rank, getD_eq_getElem?_getD]

/-- The combined values where all ranks meet with vectors of one length. -/
def meet (tasks : Fin ranks → Task V R) : Option (List V) :=
  let brought := (List.finRange ranks).map fun rank => (tasks rank).brings
  match brought with
  | some first :: _ =>
    if brought.all fun values => values.any fun values => values.length = first.length then
      some (combine zero add first.length fun rank => (tasks rank).brings.getD [])
    else none
  | _ => none

/-- Run the programs of all ranks for at most `fuel` reductions. -/
def runTasks : Nat → (Fin ranks → Task V R) → Option (Fin ranks → Except String R)
  | 0, _ => none
  | fuel + 1, tasks =>
    match meet zero add tasks with
    | some combined => runTasks fuel fun rank => (tasks rank).resume combined
    | none => some fun rank => (tasks rank).outcome

variable {zero add} {results : Fin ranks → Except String R}

/-- More fuel gives the same results. -/
lemma runTasks_mono {fuel more : Nat} (less : fuel ≤ more)
    (ran : runTasks zero add fuel tasks = some results) :
    runTasks zero add more tasks = some results := by
  induction fuel generalizing more tasks with
  | zero => cases ran
  | succ fuel ih =>
    obtain ⟨extra, rfl⟩ : ∃ extra, more = extra + 1 := ⟨more - 1, by omega⟩
    rw [runTasks] at ran ⊢
    cases met : meet zero add tasks with
    | some combined =>
      rw [met] at ran
      exact ih (Nat.le_of_succ_le_succ less) ran
    | none =>
      rw [met] at ran
      exact ran

/-- The results of programs, whatever the fuel. -/
def Results (zero : V) (add : V → V → V) (tasks : Fin ranks → Task V R)
    (results : Fin ranks → Except String R) : Prop :=
  ∃ fuel, runTasks zero add fuel tasks = some results

lemma Results.unique {first second : Fin ranks → Except String R}
    (one : Results zero add tasks first) (two : Results zero add tasks second) :
    first = second := by
  obtain ⟨fuelOne, ranOne⟩ := one
  obtain ⟨fuelTwo, ranTwo⟩ := two
  have left := runTasks_mono (le_max_left fuelOne fuelTwo) ranOne
  have right := runTasks_mono (le_max_right fuelOne fuelTwo) ranTwo
  exact Option.some.inj (left.symm.trans right)

variable [NeZero ranks]

/-- All ranks bring vectors of one length. -/
lemma meet_eq_some (brought : ∀ rank, (tasks rank).brings = some (vectors rank))
    (sizes : ∀ rank, (vectors rank).length = size) :
    meet zero add tasks = some (combine zero add size vectors) := by
  obtain ⟨others, rfl⟩ : ∃ others, ranks = others + 1 :=
    Nat.exists_eq_succ_of_ne_zero (NeZero.ne ranks)
  have same : (fun rank => (tasks rank).brings.getD []) = vectors := by
    funext rank
    rw [brought rank]
    rfl
  rw [meet, finRange_succ, map_cons, brought 0]
  simp only
  rw [if_pos, same, sizes 0]
  rw [all_eq_true, forall_mem_cons, forall_mem_map]
  refine ⟨by simp, fun rank _ => ?_⟩
  rw [brought rank]
  simp [sizes]

variable {rank : Fin ranks}
omit [NeZero ranks] in
/-- If one rank brings nothing, there is nothing to combine. -/
lemma meet_eq_none (absent : (tasks rank).brings = none) : meet zero add tasks = none := by
  rw [meet]
  split
  next first rest _ =>
    rw [if_neg]
    intro all
    rw [all_eq_true] at all
    have mem : (tasks rank).brings ∈ (List.finRange ranks).map fun rank => (tasks rank).brings :=
      mem_map_of_mem (mem_finRange rank)
    have test := all _ mem
    rw [absent] at test
    cases test
  next => rfl

lemma Results.of_meet {next : Fin ranks → List V → Task V R}
    (waiting : ∀ rank, tasks rank = .reduce (vectors rank) (next rank))
    (sizes : ∀ rank, (vectors rank).length = size)
    (later : Results zero add (fun rank => next rank (combine zero add size vectors)) results) :
    Results zero add tasks results := by
  obtain ⟨fuel, ran⟩ := later
  refine ⟨fuel + 1, ?_⟩
  have met : meet zero add tasks = some (combine zero add size vectors) :=
    meet_eq_some (fun rank => by rw [waiting rank]; rfl) sizes
  rw [runTasks, met]
  have same : (fun rank => (tasks rank).resume (combine zero add size vectors)) =
      fun rank => next rank (combine zero add size vectors) := by
    funext rank
    rw [waiting rank]
    rfl
  rw [← same] at ran
  exact ran

omit [NeZero ranks] in
lemma Results.of_absent (absent : (tasks rank).brings = none) :
    Results zero add tasks fun rank => (tasks rank).outcome :=
  ⟨1, by rw [runTasks, meet_eq_none absent]⟩

/-- Programs that have ended at all ranks. -/
lemma Results.of_ended (ended : ∀ rank, (tasks rank).brings = none) :
    Results zero add tasks fun rank => (tasks rank).outcome :=
  Results.of_absent (ended 0)

/-- Programs always end: the first rank's program gets shorter with every
reduction. -/
lemma Results.exists (tasks : Fin ranks → Task V R) :
    ∃ results, Results zero add tasks results := by
  generalize first : tasks 0 = task
  induction task generalizing tasks with
  | ok result | fail msg => exact ⟨_, Results.of_absent (by rw [first]; rfl)⟩
  | reduce values next ih =>
    cases met : meet zero add tasks with
    | some combined =>
      obtain ⟨results, fuel, ran⟩ := ih combined (fun rank => (tasks rank).resume combined)
        (by rw [first]; rfl)
      exact ⟨results, fuel + 1, by rw [runTasks, met]; exact ran⟩
    | none => exact ⟨_, 1, by rw [runTasks, met]⟩

end Run

/-! ## Uniform outcomes -/

/-- All ranks return or all fail. -/
def Uniform {R : Type} {ranks : Nat} (results : Fin ranks → Except String R) : Prop :=
  (∀ rank, (results rank).isOk = true) ∨ ∀ rank, (results rank).isOk = false

end Joshua.Foundation
