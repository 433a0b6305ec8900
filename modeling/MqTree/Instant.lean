import MqTree.Duration

namespace MqTree

/-- A moment, in nanoseconds since the start of 1970 in universal time. -/
structure Instant where
  nanos : Int
  deriving DecidableEq, Repr

namespace Instant

def before (a b : Instant) : Bool := a.nanos < b.nanos

def minus (t : Instant) (d : Duration) : Instant := ⟨t.nanos - d.nanos⟩

def plus (t : Instant) (d : Duration) : Instant := ⟨t.nanos + d.nanos⟩

/-- The day of the calendar that comes `days` after the first of March 0000, as
year, month and day. Years that start in March have their leap day at the
end. -/
def calendarDay (days : Int) : Int × Int × Int :=
  let era := days / 146097
  let dayOfEra := days % 146097
  let yearOfEra := (dayOfEra - dayOfEra / 1460 + dayOfEra / 36524 - dayOfEra / 146096) / 365
  let dayOfYear := dayOfEra - (365 * yearOfEra + yearOfEra / 4 - yearOfEra / 100)
  let march := (5 * dayOfYear + 2) / 153
  let day := dayOfYear - (153 * march + 2) / 5 + 1
  let month := if march < 10 then march + 3 else march - 9
  (yearOfEra + era * 400 + (if month ≤ 2 then 1 else 0), month, day)

def padded (width : Nat) (n : Int) : String :=
  let digits := toString n.toNat
  String.ofList (List.replicate (width - digits.length) '0') ++ digits

def render (t : Instant) : String :=
  let total := t.nanos / Duration.second
  let (year, month, day) := calendarDay (total / 86400 + 719468)
  let seconds := total % 86400
  let fraction :=
    ((padded 9 (t.nanos % Duration.second)).toList.reverse.dropWhile (· == '0')).reverse
  padded 4 year ++ "-" ++ padded 2 month ++ "-" ++ padded 2 day ++ "T" ++
    padded 2 (seconds / 3600) ++ ":" ++ padded 2 (seconds / 60 % 60) ++ ":" ++
    padded 2 (seconds % 60) ++
    (if fraction.isEmpty then "" else "." ++ String.ofList fraction) ++ "Z"

end Instant

end MqTree
