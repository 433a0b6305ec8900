namespace MqTree

def twoPow (n : Nat) : Nat := Nat.pow 2 n

def tenPow (n : Nat) : Nat := Nat.pow 10 n

def fitsInt64 (n : Int) : Bool := Int64.minValue.toInt ≤ n && n ≤ Int64.maxValue.toInt

structure Decimal where
  negative : Bool
  mantissa : Nat
  exponent : Int
  deriving DecidableEq, Repr

namespace Decimal

def isDigit (c : Char) : Bool := c.isDigit

def digitsValue (cs : List Char) : Nat :=
  cs.foldl (fun n c => 10 * n + (c.toNat - '0'.toNat)) 0

/-- An exponent mark and what it scales by. Nothing may follow, and no mark
means no scaling. -/
def scale? : List Char → Option Int
  | [] => some 0
  | mark :: cs =>
      if mark != 'e' && mark != 'E' then none
      else
        let (negative, digits) := match cs with
          | '-' :: ds => (true, ds)
          | '+' :: ds => (false, ds)
          | ds => (false, ds)
        if digits.isEmpty || !digits.all isDigit then none
        else
          let n : Int := digitsValue digits
          some (if negative then -n else n)

def ofUnsigned? (negative : Bool) (cs : List Char) : Option Decimal :=
  let whole := cs.takeWhile isDigit
  let rest := cs.dropWhile isDigit
  let (fraction, rest) := match rest with
    | '.' :: rest => (rest.takeWhile isDigit, rest.dropWhile isDigit)
    | rest => ([], rest)
  if whole.isEmpty && fraction.isEmpty then none
  else (scale? rest).map fun n =>
    ⟨negative, digitsValue (whole ++ fraction), n - fraction.length⟩

def ofChars? : List Char → Option Decimal
  | '-' :: cs => ofUnsigned? true cs
  | '+' :: cs => ofUnsigned? false cs
  | cs => ofUnsigned? false cs

end Decimal

structure Binary where
  mantissa : Nat
  exponent : Int
  deriving DecidableEq, Repr

namespace Binary

/-- The quotient rounded to the nearest integer, a tie to the even one. -/
def roundDiv (num den : Nat) : Nat :=
  let q := num / den
  let twice := 2 * (num % den)
  if twice < den || (twice == den && q % 2 == 0) then q else q + 1

def reaches (num den : Nat) (e : Int) : Bool :=
  if 0 ≤ e then decide (den * twoPow e.toNat ≤ num) else decide (den ≤ num * twoPow (-e).toNat)

/-- The number with 53 significant bits nearest to a positive quotient; very
small ones have fewer. -/
def ofQuotient (num den : Nat) : Binary :=
  let guess : Int := (num.log2 : Int) - den.log2
  let top := if reaches num den guess then guess else guess - 1
  let exponent := max (top - 52) (-1074)
  let mantissa :=
    if 0 ≤ exponent then roundDiv num (den * twoPow exponent.toNat)
    else roundDiv (num * twoPow (-exponent).toNat) den
  ⟨mantissa, exponent⟩

def tooLarge (b : Binary) : Bool :=
  971 < b.exponent || (b.exponent == 971 && twoPow 53 ≤ b.mantissa)

def toNat? (b : Binary) : Option Nat :=
  if 0 ≤ b.exponent then some (b.mantissa * twoPow b.exponent.toNat)
  else
    let unit := twoPow (-b.exponent).toNat
    if b.mantissa % unit = 0 then some (b.mantissa / unit) else none

end Binary

namespace Decimal

/-- The magnitude of a decimal in floating point. Beyond some 300 digits on
either side of the point, its order alone decides. -/
def toBinary (d : Decimal) : Binary :=
  let order : Int := (toString d.mantissa).length + d.exponent
  if d.mantissa = 0 || order < -330 then ⟨0, 0⟩
  else if 330 < order then ⟨1, 1024⟩
  else if 0 ≤ d.exponent then Binary.ofQuotient (d.mantissa * tenPow d.exponent.toNat) 1
  else Binary.ofQuotient d.mantissa (tenPow (-d.exponent).toNat)

def tooLarge (d : Decimal) : Bool := d.toBinary.tooLarge

def toInt? (d : Decimal) : Option Int :=
  d.toBinary.toNat?.map fun n => if d.negative then -(n : Int) else n

end Decimal

end MqTree
