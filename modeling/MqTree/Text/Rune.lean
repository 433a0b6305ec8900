import MqTree.Text.Basic

namespace MqTree

/-- What stands at an offset: a character and how many bytes it takes. A byte
that starts no well-formed character stands alone, with no character. -/
structure Rune where
  char? : Option Char
  width : Nat
  deriving DecidableEq, Repr

namespace Rune

def stray : Rune := ⟨none, 1⟩

def tail? (lo hi : UInt8) (b? : Option UInt8) : Option Nat :=
  b?.bind fun b => if lo ≤ b ∧ b ≤ hi then some (b.toNat % 64) else none

/-- The number of continuation bytes after a leading byte, its payload, and the
range of the first continuation byte, which rules out overlong forms,
surrogates and values past U+10FFFF. -/
def lead? (b : UInt8) : Option (Nat × Nat × UInt8 × UInt8) :=
  if b < 0xC2 then none
  else if b < 0xE0 then some (1, b.toNat % 32, 0x80, 0xBF)
  else if b < 0xF0 then
    some (2, b.toNat % 16, if b = 0xE0 then 0xA0 else 0x80, if b = 0xED then 0x9F else 0xBF)
  else if b < 0xF5 then
    some (3, b.toNat % 8, if b = 0xF0 then 0x90 else 0x80, if b = 0xF4 then 0x8F else 0xBF)
  else none

/-- The value of a character with `payload` in its leading byte and `n`
continuation bytes from offset `i` on. -/
def value? (t : Text) (i : Nat) (lo hi : UInt8) (payload : Nat) : Nat → Option Nat
  | 0 => some payload
  | n + 1 => (tail? lo hi t[i]?).bind fun low =>
      value? t (i + 1) 0x80 0xBF (payload * 64 + low) n

def at? (t : Text) (i : Nat) : Option Rune :=
  t[i]?.map fun b =>
    if b < 0x80 then ⟨some (Char.ofNat b.toNat), 1⟩
    else
      match lead? b with
      | none => stray
      | some (n, payload, lo, hi) =>
          match value? t (i + 1) lo hi payload n with
          | none => stray
          | some v => ⟨some (Char.ofNat v), n + 1⟩

def listFrom (t : Text) : Nat → Nat → List (Rune × Text)
  | 0, _ => []
  | fuel + 1, i =>
      match at? t i with
      | none => []
      | some r => (r, t.extract i (i + r.width)) :: listFrom t fuel (i + r.width)

def list (t : Text) : List (Rune × Text) := listFrom t t.size 0

end Rune

/-! Names compared without regard to case. -/

/-- One character for all that differ only in case. Outside ASCII this covers
the characters that share a lower case with an ASCII letter: the long s and the
Kelvin sign. -/
def foldCase (c : Char) : Char :=
  if c == '\u017F' then 's' else if c == '\u212A' then 'k' else c.toLower

def sameName (a b : String) : Bool := a.toList.map foldCase == b.toList.map foldCase

end MqTree
