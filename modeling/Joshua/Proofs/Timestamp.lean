/-
Module: Joshua.Proofs.Timestamp
Purpose: A timestamp names the date of its instant in the Gregorian calendar.
Trusted boundary: none
-/
import Joshua.Model.Timestamp
import Mathlib.Algebra.BigOperators.Group.List.Basic
import Mathlib.Algebra.GroupWithZero.Nat

namespace Joshua.Timestamp

/-! ## The calendar -/

def isLeap (year : Nat) : Bool :=
  year % 4 = 0 && (year % 100 ≠ 0 || year % 400 = 0)

def monthLengths (leap : Bool) : List Nat :=
  [31, if leap then 29 else 28, 31, 30, 31, 30, 31, 31, 30, 31, 30, 31]

/-- The days from the beginning of 1970 to that of a year. -/
def daysBeforeYear (year : Nat) : Nat :=
  ((List.range' 1970 (year - 1970)).map fun year => (monthLengths (isLeap year)).sum).sum

/-- The days from 1970-01-01 to a date. -/
def daysFromDate (year month day : Nat) : Nat :=
  daysBeforeYear year + ((monthLengths (isLeap year)).take (month - 1)).sum + (day - 1)

variable {year : Nat}

lemma daysBeforeYear_succ (late : 1970 ≤ year) :
    daysBeforeYear (year + 1) = daysBeforeYear year + (365 + (isLeap year).toNat) := by
  have lengths : ∀ leap, (monthLengths leap).sum = 365 + leap.toNat := by decide
  rw [daysBeforeYear, Nat.sub_add_comm late, List.range'_1_concat, List.map_append,
    List.sum_append, Nat.add_sub_cancel' late, List.map_singleton, List.sum_singleton, lengths]
  rfl

/-- The days of whole years, by the leap years among them. -/
lemma daysBeforeYear_eq (late : 1969 ≤ year) : daysBeforeYear (year + 1) + 719162 =
    365 * year + year / 4 - year / 100 + year / 400 := by
  induction year, late using Nat.le_induction with
  | base => rfl
  | succ year late ih =>
    rw [daysBeforeYear_succ (show 1970 ≤ year + 1 by omega)]
    cases leap : isLeap (year + 1) <;> simp [isLeap] at leap ⊢ <;> omega

/-- A day of an era of 400 years: its century, the four years of that, the
year of those and the day of the year, which is the 366th only where the
February at its end has 29 days. -/
lemma era_day {doe : Int} (nonneg : 0 ≤ doe) (small : doe < 146097) :
    ∃ c q y r, doe = 36524 * c + 1461 * q + 365 * y + r ∧ (0 ≤ c ∧ c ≤ 3) ∧ (0 ≤ q ∧ q ≤ 24) ∧
      (0 ≤ y ∧ y ≤ 3) ∧ 0 ≤ r ∧ (r ≤ 364 ∨ r = 365 ∧ y = 3 ∧ (q < 24 ∨ c = 3)) := by
  obtain ⟨c, e, rfl, century, day⟩ : ∃ c e, doe = 36524 * c + e ∧ (0 ≤ c ∧ c ≤ 3) ∧
      0 ≤ e ∧ (e < 36524 ∨ e = 36524 ∧ c = 3) :=
    ⟨min 3 (doe / 36524), _, (add_sub_cancel _ _).symm, by omega⟩
  refine ⟨c, e / 1461, min 3 (e % 1461 / 365), _, (add_sub_cancel _ _).symm, century, ?_⟩
  omega

section
variable {c q y r : Int} (quad : 0 ≤ q ∧ q ≤ 24) (single : 0 ≤ y ∧ y ≤ 3)
include quad single

lemma yearOfEra {doe : Int} (nonneg : 0 ≤ r)
    (day : r ≤ 364 ∨ r = 365 ∧ y = 3 ∧ (q < 24 ∨ c = 3)) (century : 0 ≤ c ∧ c ≤ 3)
    (whole : doe = 36524 * c + 1461 * q + 365 * y + r) :
    (doe - doe / 1460 + doe / 36524 - doe / 146096) / 365 = 100 * c + 4 * q + y := by
  have fours : doe / 1460 = 25 * c + q ∨ doe / 1460 = 25 * c + q + 1 := by omega
  -- `doe / 146096` is 1 on the last day of an era, else 0
  rcases Int.lt_or_le doe 146096 with early | last
  · have centuries : doe / 36524 = c := by omega
    have eras : doe / 146096 = 0 := by omega
    rw [centuries, eras]
    omega
  · omega

lemma dayOfYear : 36524 * c + 1461 * q + 365 * y + r - (365 * (100 * c + 4 * q + y) +
    (100 * c + 4 * q + y) / 4 - (100 * c + 4 * q + y) / 100) = r := by
  have fours : (100 * c + 4 * q + y) / 4 = 25 * c + q := by omega
  have centuries : (100 * c + 4 * q + y) / 100 = c := by omega
  omega

end

/-- The day since the last 1st of March, and the year of that. -/
lemma civilFromDays_eq (days : Nat) : ∃ begun place : Nat, 1969 ≤ begun ∧ place < 366 ∧
    (place = 365 → isLeap (begun + 1) = true) ∧
    daysBeforeYear (begun + 1) + place = days + 306 ∧ civilFromDays days =
      ((begun : Int) + if (monthDay place).1 ≤ 2 then 1 else 0, monthDay place) := by
  generalize eraEq : ((days : Int) + 719468) / 146097 = era
  generalize doeEq : ((days : Int) + 719468) % 146097 = doe
  have count : (days : Int) + 719468 = 146097 * era + doe := by omega
  obtain ⟨c, q, y, r, whole, century, quad, single, nonneg, last⟩ :=
    @era_day doe (by omega) (by omega)
  have yoe := yearOfEra quad single nonneg last century whole
  obtain ⟨place, rfl⟩ := Int.eq_ofNat_of_zero_le nonneg
  obtain ⟨begun, begunEq⟩ : ∃ begun : Nat, (begun : Int) = 100 * c + 4 * q + y + era * 400 :=
    ⟨_, Int.toNat_of_nonneg (by omega)⟩
  have late : 1969 ≤ begun := by omega
  refine ⟨begun, place, late, by omega, fun final => ?_, ?_, ?_⟩
  · simp only [isLeap, Bool.and_eq_true, Bool.or_eq_true, decide_eq_true_eq]
    omega
  · have sum := daysBeforeYear_eq late
    have fours : begun / 4 = 100 * era + 25 * c + q := by omega
    have centuries : begun / 100 = 4 * era + c := by omega
    have eras : begun / 400 = era := by omega
    omega
  · rw [civilFromDays, eraEq, doeEq, yoe, whole, dayOfYear quad single, begunEq]

/-- Every day of a year that begins in March, before a February of 28 or of
29 days. -/
lemma monthDay_spec : ∀ place < (366 : Nat), ∀ leap : Bool,
    let month := (monthDay place).1.toNat
    let day := (monthDay place).2.toNat
    monthDay place = (↑month, ↑day) ∧ (1 ≤ month ∧ month ≤ 12) ∧ (month ≤ 2 ↔ 306 ≤ place) ∧
      1 ≤ day ∧ (day ≤ (monthLengths leap).getD (month - 1) 0 ∨ place = 365 ∧ leap = false) ∧
      ((monthLengths leap).take (month - 1)).sum + (day - 1) =
        if month ≤ 2 then place - 306 else place + (59 + leap.toNat) := by
  decide +kernel

/-- A date is on the calendar, and counting the days up to it leads back. -/
lemma civilFromDays_spec (days : Nat) : ∃ year month day : Nat,
    civilFromDays days = (↑year, ↑month, ↑day) ∧
    (1 ≤ month ∧ month ≤ 12) ∧ (1 ≤ day ∧ day ≤ (monthLengths (isLeap year)).getD (month - 1) 0) ∧
      daysFromDate year month day = days := by
  obtain ⟨begun, place, late, below, leap, total, date⟩ := civilFromDays_eq days
  have table := monthDay_spec place below
  generalize (monthDay place).1.toNat = month at table
  generalize (monthDay place).2.toNat = day at table
  by_cases winter : month ≤ 2
  · obtain ⟨same, months, part, first, length, sum⟩ := table (isLeap (begun + 1))
    rw [if_pos winter] at sum
    refine ⟨begun + 1, month, day, ?_, months, ⟨first, ?_⟩, ?_⟩
    · rw [date, same, if_pos (show (month : Int) ≤ 2 by omega)]
      rfl
    · exact length.resolve_right fun short => by simp [leap short.1] at short
    · rw [daysFromDate]
      omega
  · obtain ⟨same, months, part, first, length, sum⟩ := table (isLeap begun)
    rw [if_neg winter] at sum
    have later : 1970 ≤ begun := by
      rcases Nat.eq_or_lt_of_le late with rfl | later
      · have nothing : daysBeforeYear (1969 + 1) = 0 := rfl
        omega
      · exact later
    have next := daysBeforeYear_succ later
    refine ⟨begun, month, day, ?_, months, ⟨first, by omega⟩, ?_⟩
    · rw [date, same, if_neg (show ¬ (month : Int) ≤ 2 by omega), add_zero]
    · rw [daysFromDate]
      omega

/-! ## The text -/

/-- The numbers of a text, between its other characters. -/
def numbers (text : List Char) : List Nat :=
  (text.splitOnP fun c => !c.isDigit).map fun digits => Nat.ofDigitChars 10 digits 0

lemma pushn_toList (c : Char) (n : Nat) (s : String) :
    (s.pushn c n).toList = s.toList ++ List.replicate n c := by
  rw [String.pushn]
  induction n with
  | zero => simp [Nat.repeat]
  | succ n ih =>
    rw [Nat.repeat, String.toList_push, ih, List.append_assoc, List.replicate_succ']

lemma padded_toList (width number : Nat) : ∃ zeros,
    (padded width number).toList = List.replicate zeros '0' ++ Nat.toDigits 10 number := by
  have digits : (toString (number : Int)).toList = Nat.toDigits 10 number := Nat.toList_repr
  rw [padded, String.toList_append, pushn_toList, digits]
  exact ⟨_, rfl⟩

lemma ofDigitChars_zeros (zeros : Nat) : Nat.ofDigitChars 10 (List.replicate zeros '0') 0 = 0 := by
  induction zeros with
  | zero => rfl
  | succ zeros ih => exact ih

/-- A padded number is read back. -/
lemma numbers_padded (width number : Nat) {mark : Char} (other : mark.isDigit = false)
    (rest : List Char) :
    numbers ((padded width number).toList ++ mark :: rest) = number :: numbers rest := by
  obtain ⟨zeros, text⟩ := padded_toList width number
  have digit : ∀ c ∈ List.replicate zeros '0' ++ Nat.toDigits 10 number, (!c.isDigit) = false := by
    intro c inside
    rcases List.mem_append.mp inside with zero | digit
    · rw [List.eq_of_mem_replicate zero]
      rfl
    · rw [Nat.isDigit_of_mem_toDigits (by decide) (by decide) digit]
      rfl
  rw [numbers, text, List.splitOnP_append_cons_of_forall_mem digit _ (by rw [other]; rfl),
    List.map_cons, Nat.ofDigitChars_append, ofDigitChars_zeros, Nat.ofDigitChars_ten_toDigits]
  rfl

lemma numbers_render (year month day hour minute second nanos : Nat) :
    numbers (render (year, month, day) hour minute second nanos).toList =
      [year, month, day, hour, minute, second, nanos, 0] := by
  have nothing : numbers [] = [0] := rfl
  simp [render, numbers_padded, nothing]

end Joshua.Timestamp
