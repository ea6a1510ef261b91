import BlockExchange.Duration

/-!
# Timestamps

A moment in nanoseconds since the start of 1970, and its text in the calendar: date, time and nine
digits of a second, in UTC.
-/

namespace BlockExchange

structure Timestamp where
  nanos : Nat
deriving DecidableEq, Repr

namespace Timestamp

/-- A number in at least `width` decimal digits. -/
def digits (width n : Nat) : String :=
  let text := toString n
  String.ofList (List.replicate (width - text.length) '0') ++ text

/-- Year, month and day of the day with this number, counted from the first of 1970. Years are
counted from March, so that the day of a leap year comes last. -/
def date (day : Nat) : Nat × Nat × Nat :=
  let shifted := day + 719468
  let era := shifted / 146097
  let dayOfEra := shifted % 146097
  let yearOfEra :=
    (dayOfEra - dayOfEra / 1460 + dayOfEra / 36524 - dayOfEra / 146096) / 365
  let dayOfYear := dayOfEra - (365 * yearOfEra + yearOfEra / 4 - yearOfEra / 100)
  let m := (5 * dayOfYear + 2) / 153
  let month := if m < 10 then m + 3 else m - 9
  let year := yearOfEra + era * 400 + (if month ≤ 2 then 1 else 0)
  (year, month, dayOfYear - (153 * m + 2) / 5 + 1)

def calendar (t : Timestamp) : String :=
  let seconds := t.nanos / Duration.nanosPerSecond
  let (year, month, day) := date (seconds / 86400)
  let time := seconds % 86400
  digits 4 year ++ "-" ++ digits 2 month ++ "-" ++ digits 2 day ++ "T"
    ++ digits 2 (time / 3600) ++ ":" ++ digits 2 (time / 60 % 60) ++ ":" ++ digits 2 (time % 60)
    ++ "." ++ digits 9 (t.nanos % Duration.nanosPerSecond) ++ "Z"

end Timestamp
end BlockExchange
