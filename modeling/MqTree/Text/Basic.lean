namespace MqTree

/-! Source texts are plain byte sequences: nothing says that they are valid
UTF-8, and every offset into them counts bytes. -/

abbrev Text := Array UInt8

namespace Text

abbrev byte (c : Char) : UInt8 := c.toUInt8

def newline : UInt8 := 10

def ofString (s : String) : Text := s.toUTF8.data

def toString? (t : Text) : Option String := String.fromUTF8? ⟨t⟩

/-- The bytes `[start, stop)`, when that range lies inside the text. -/
def slice? (t : Text) (start stop : Int) : Option Text :=
  if 0 ≤ start ∧ start ≤ stop ∧ stop ≤ t.size then
    some (t.extract start.toNat stop.toNat)
  else
    none

/-- The first position at or after `i`, among the next `n`, whose byte fails
`p`. -/
def skipUpTo (t : Text) (p : UInt8 → Bool) : Nat → Nat → Nat
  | 0, i => i
  | n + 1, i => if (t[i]?).any p then skipUpTo t p n (i + 1) else i

def skipWhile (t : Text) (p : UInt8 → Bool) (i : Nat) : Nat :=
  skipUpTo t p (t.size - i) i

/-- The pieces of a text between its newlines: one more than it has
newlines. -/
def lines (t : Text) : List Text :=
  let (done, last) := t.foldl
    (fun (done, line) b => if b == newline then (line :: done, #[]) else (done, line.push b))
    ([], #[])
  (last :: done).reverse

def mapLines (f : Text → Text) (t : Text) : Text :=
  match t.lines.map (fun line => if line.isEmpty then line else f line) with
  | [] => #[]
  | line :: rest => rest.foldl (fun out line => out.push newline ++ line) line

end Text

structure Point where
  line : Nat
  column : Nat
  deriving DecidableEq, Repr

namespace Point

def render (p : Point) : String := s!"{p.line}:{p.column}"

end Point

structure Place where
  index : Nat
  line : Nat
  lineStart : Nat
  deriving DecidableEq, Repr

namespace Place

def origin : Place := ⟨0, 1, 0⟩

def next (t : Text) (p : Place) : Place :=
  if t[p.index]? = some Text.newline then
    ⟨p.index + 1, p.line + 1, p.index + 1⟩
  else
    ⟨p.index + 1, p.line, p.lineStart⟩

def advance (t : Text) : Nat → Place → Place
  | 0, p => p
  | n + 1, p => advance t n (p.next t)

/-- The place at offset `index`, found by walking on from `p` when it is not
behind `p` and from the start of the text otherwise. -/
def moveTo (t : Text) (p : Place) (index : Nat) : Place :=
  if p.index ≤ index then advance t (index - p.index) p else advance t index origin

def point (p : Place) : Point := ⟨p.line, p.index - p.lineStart + 1⟩

end Place

/-- The offsets at which the lines of a text start, in order. -/
structure LineIndex where
  starts : List Nat
  deriving DecidableEq, Repr

namespace LineIndex

def ofText (t : Text) : LineIndex :=
  ⟨0 :: (List.range t.size).filterMap
    (fun i => if t[i]? = some Text.newline then some (i + 1) else none)⟩

/-- The last line that starts at or before `offset`, given the line before
`starts` and where it starts. -/
def find (offset : Nat) : Nat → Nat → List Nat → Point
  | line, start, [] => ⟨line, offset - start + 1⟩
  | line, start, next :: rest =>
      if next ≤ offset then find offset (line + 1) next rest else ⟨line, offset - start + 1⟩

/-- The position of an offset. Behind the end of the text, columns count on
from its last line. -/
def point (lines : LineIndex) (offset : Nat) : Point :=
  match lines.starts with
  | [] => ⟨1, offset + 1⟩
  | first :: rest => find offset 1 first rest

def point? (lines : LineIndex) (offset : Int) : Option Point :=
  if offset < 0 then none else some (lines.point offset.toNat)

end LineIndex

end MqTree
