/-
Module: Joshua.Model.Timestamp
Purpose: UTC timestamps (`rfc3339` in `types.rs`).
Trusted boundary: none
-/
import Mathlib.Data.List.Range

namespace Joshua.Timestamp

/-- The month and the day of the month of a day of a year that begins in
March. -/
def monthDay (doy : Int) : Int × Int :=
  let mp := (5 * doy + 2) / 153
  let day := doy - (153 * mp + 2) / 5 + 1
  let month := if mp < 10 then mp + 3 else mp - 9
  (month, day)

/-- `civil_from_days`: the date of a day since 1970-01-01. No dividend is
negative, so that `/` is the division of the code, and the days of 64-bit
seconds leave every number far inside an `i64`. -/
def civilFromDays (days : Nat) : Int × Int × Int :=
  let z : Int := days + 719468
  let era := z / 146097
  let doe := z % 146097
  let yoe := (doe - doe / 1460 + doe / 36524 - doe / 146096) / 365
  let doy := doe - (365 * yoe + yoe / 4 - yoe / 100)
  let (month, day) := monthDay doy
  (yoe + era * 400 + if month ≤ 2 then 1 else 0, month, day)

/-- `{:0width}` of a number that is not negative. -/
def padded (width : Nat) (number : Int) : String :=
  "".pushn '0' (width - (toString number).length) ++ toString number

/-- The text of a date, a time of day and nanoseconds. -/
def render (date : Int × Int × Int) (hour minute second nanos : Nat) : String :=
  padded 4 date.1 ++ "-" ++ padded 2 date.2.1 ++ "-" ++ padded 2 date.2.2 ++ "T" ++
    padded 2 hour ++ ":" ++ padded 2 minute ++ ":" ++ padded 2 second ++ "." ++
    padded 9 nanos ++ "Z"

/-- The time is given as the seconds and nanoseconds since the epoch, if it is
not before. -/
def rfc3339 (time : Option (Nat × Nat)) : String :=
  let since := time.getD (0, 0)
  let rem := since.1 % 86400
  render (civilFromDays (since.1 / 86400)) (rem / 3600) (rem % 3600 / 60) (rem % 60) since.2

end Joshua.Timestamp
