/-!
Times in texts. A time is a count of milliseconds since the start of 1970; its text is the date and the
time of day in UTC.
-/
namespace ModWeave.Timestamp

structure Date where
  year : Nat
  month : Nat
  day : Nat
deriving DecidableEq, Repr

/-- The date so many days after the start of 1970. Years are counted from March, so that a leap day
ends its year, and in eras of 400 years, which all have the same number of days. -/
def Date.ofDays (days : Nat) : Date :=
  let days := days + 719468
  let era := days / 146097
  let dayOfEra := days % 146097
  let yearOfEra := (dayOfEra - dayOfEra / 1460 + dayOfEra / 36524 - dayOfEra / 146096) / 365
  let dayOfYear := dayOfEra - (365 * yearOfEra + yearOfEra / 4 - yearOfEra / 100)
  let month := (5 * dayOfYear + 2) / 153
  let day := dayOfYear - (153 * month + 2) / 5 + 1
  let year := yearOfEra + era * 400
  if month < 10 then ⟨year, month + 3, day⟩ else ⟨year + 1, month - 9, day⟩

/-- A number with at least so many digits. -/
def padded (width n : Nat) : String := String.ofList ((Nat.toDigits 10 n).leftpad width '0')

/-- The text of a time. Milliseconds are left out when there are none. -/
def text (time : Nat) : String :=
  let seconds := time / 1000
  let date := Date.ofDays (seconds / 86400)
  let fraction := if time % 1000 = 0 then "" else "." ++ padded 3 (time % 1000)
  s!"{padded 4 date.year}-{padded 2 date.month}-{padded 2 date.day}T" ++
    s!"{padded 2 (seconds / 3600 % 24)}:{padded 2 (seconds / 60 % 60)}:{padded 2 (seconds % 60)}" ++
    fraction ++ "Z"

end ModWeave.Timestamp
