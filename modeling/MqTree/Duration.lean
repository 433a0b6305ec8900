import MqTree.Decimal

namespace MqTree

structure Duration where
  nanos : Int
  deriving DecidableEq, Repr

namespace Duration

def second : Nat := 1000000000

def ofSeconds (n : Int) : Duration := ⟨n * second⟩

def ofMinutes (n : Int) : Duration := ofSeconds (n * 60)

def ofMillis (n : Int) : Duration := ⟨n * 1000000⟩

def units : List (String × Nat) :=
  [("ns", 1), ("us", 1000), ("\u00b5s", 1000), ("\u03bcs", 1000), ("ms", 1000000),
    ("s", second), ("m", 60 * second), ("h", 3600 * second)]

def limit : Nat := twoPow 63

/-- The digits of a fraction that count, as a number, and how many there are.
Digits past the range of 63 bits do not count. -/
def fraction (value count : Nat) : List Char → Nat × Nat
  | [] => (value, count)
  | c :: cs =>
      let next := 10 * value + (c.toNat - '0'.toNat)
      if (limit - 1) / 10 < value || limit < next then (value, count)
      else fraction next (count + 1) cs

/-- The share of a unit that a fraction stands for, computed in floating point
and cut to an integer. -/
def share (value count unit : Nat) : Nat :=
  if value = 0 then 0
  else
    let a := Binary.ofQuotient unit (tenPow count)
    let b := Binary.ofQuotient value 1
    let e := a.exponent + b.exponent
    let m := a.mantissa * b.mantissa
    let product :=
      if 0 ≤ e then Binary.ofQuotient (m * twoPow e.toNat) 1
      else Binary.ofQuotient m (twoPow (-e).toNat)
    if 0 ≤ product.exponent then product.mantissa * twoPow product.exponent.toNat
    else product.mantissa / twoPow (-product.exponent).toNat

def isNumeral (c : Char) : Bool := c.isDigit || c == '.'

def part? (cs : List Char) : Option (Nat × List Char) := do
  let whole := cs.takeWhile Char.isDigit
  let rest := cs.dropWhile Char.isDigit
  let (digits, rest) := match rest with
    | '.' :: rest => (rest.takeWhile Char.isDigit, rest.dropWhile Char.isDigit)
    | rest => ([], rest)
  if whole.isEmpty && digits.isEmpty then none
  else
    let unit ← units.lookup (String.ofList (rest.takeWhile (!isNumeral ·)))
    let value := Decimal.digitsValue whole
    if limit < value || limit / unit < value then none
    else
      let (value', count) := fraction 0 0 digits
      let total := value * unit + share value' count unit
      if limit < total then none else some (total, rest.dropWhile (!isNumeral ·))

def parts? : Nat → Nat → List Char → Option Nat
  | _, total, [] => some total
  | 0, _, _ :: _ => none
  | fuel + 1, total, cs => do
      let (n, rest) ← part? cs
      if limit < total + n then none else parts? fuel (total + n) rest

/-- A duration as text: numbers with units, such as `1h30m`. Only zero needs no
unit. -/
def ofString? (s : String) : Option Duration := do
  let (negative, cs) := match s.toList with
    | '-' :: cs => (true, cs)
    | '+' :: cs => (false, cs)
    | cs => (false, cs)
  if cs = ['0'] then some ⟨0⟩
  else if cs.isEmpty then none
  else
    let n ← parts? cs.length 0 cs
    if negative then some ⟨-(n : Int)⟩
    else if n < limit then some ⟨n⟩ else none

def decimal (n places : Nat) : String :=
  let whole := toString (n / tenPow places)
  let rest := toString (n % tenPow places)
  let digits := (List.replicate (places - rest.length) '0' ++ rest.toList).take places
  let kept := (digits.reverse.dropWhile (· == '0')).reverse
  if kept.isEmpty then whole else whole ++ "." ++ String.ofList kept

def renderNat (n : Nat) : String :=
  if n = 0 then "0s"
  else if n < 1000 then decimal n 0 ++ "ns"
  else if n < 1000000 then decimal n 3 ++ "\u00b5s"
  else if n < second then decimal n 6 ++ "ms"
  else
    let minutes := n / second / 60
    let seconds := decimal (n % (60 * second)) 9 ++ "s"
    if minutes = 0 then seconds
    else
      let hours := minutes / 60
      (if hours = 0 then "" else s!"{hours}h") ++ s!"{minutes % 60}m" ++ seconds

/-- Durations from a second on are written in hours, minutes and seconds,
smaller ones in the largest unit that leaves a whole part. -/
def render (d : Duration) : String :=
  (if d.nanos < 0 then "-" else "") ++ renderNat d.nanos.natAbs

end Duration

end MqTree
