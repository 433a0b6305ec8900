import MqTree.Decimal
import MqTree.Json.Basic

namespace MqTree

namespace Text

def toStringLossy (t : Text) : String :=
  String.ofList ((Rune.list t).map fun (r, _) => r.char?.getD '\uFFFD')

end Text

namespace Json

/-! Reading of JSON. Every reader takes the bytes that are left, and gives back
those behind what it read. -/

namespace Reader

abbrev Rest := List UInt8

def isBlank (b : UInt8) : Bool := b == 32 || b == 9 || b == 10 || b == 13

def skipBlank (r : Rest) : Rest := r.dropWhile isBlank

def word? (word : String) (r : Rest) : Option Rest :=
  let w := (Text.ofString word).toList
  if w.isPrefixOf r then some (r.drop w.length) else none

def hexValue (b : UInt8) : Nat :=
  if 48 ≤ b ∧ b ≤ 57 then b.toNat - 48
  else if 97 ≤ b ∧ b ≤ 102 then b.toNat - 87
  else if 65 ≤ b ∧ b ≤ 70 then b.toNat - 55
  else 0

def hexUnit (a b c d : UInt8) : Nat :=
  ((hexValue a * 16 + hexValue b) * 16 + hexValue c) * 16 + hexValue d

def isHighSurrogate (n : Nat) : Bool := 0xD800 ≤ n && n < 0xDC00

def isLowSurrogate (n : Nat) : Bool := 0xDC00 ≤ n && n < 0xE000

def utf8 (n : Nat) : Text :=
  Text.ofString (if isHighSurrogate n || isLowSurrogate n then '\uFFFD' else Char.ofNat n).toString

def pairValue (high low : Nat) : Nat := 0x10000 + (high - 0xD800) * 0x400 + (low - 0xDC00)

def escape? (b : UInt8) : Option UInt8 :=
  if b == 34 || b == 92 || b == 47 then some b
  else if b == 98 then some 8
  else if b == 102 then some 12
  else if b == 110 then some 10
  else if b == 114 then some 13
  else if b == 116 then some 9
  else none

def lowHalf? : Rest → Option Nat
  | slash :: u :: a :: b :: c :: d :: _ :: _ =>
      let n := hexUnit a b c d
      if slash == 92 && u == 117 && isLowSurrogate n then some n else none
  | _ => none

/-- The rest of a string up to its closing quote. `skip` more bytes belong to an
escape that is read already. -/
def stringFrom (acc : Text) : Nat → Rest → Option (Text × Rest)
  | _, [] => none
  | skip + 1, _ :: r => stringFrom acc skip r
  | 0, byte :: r =>
      if byte == 34 then some (acc, r)
      else if byte == 0 then none
      else if byte != 92 then stringFrom (acc.push byte) 0 r
      else
        match r with
        | 117 :: a :: b :: c :: d :: after =>
            let n := hexUnit a b c d
            if after.isEmpty then none
            else if isHighSurrogate n then
              match lowHalf? after with
              | some low => stringFrom (acc ++ utf8 (pairValue n low)) 11 r
              | none => stringFrom (acc ++ utf8 n) 5 r
            else stringFrom (acc ++ utf8 n) 5 r
        | letter :: _ =>
            match escape? letter with
            | some b => stringFrom (acc.push b) 1 r
            | none => none
        | [] => none

def string (r : Rest) : Option (Text × Rest) := stringFrom #[] 0 r

def isNumeralByte (b : UInt8) : Bool :=
  (48 ≤ b && b ≤ 57) || b == 46 || b == 101 || b == 69 || b == 43 || b == 45

/-- A numeral that floating point numbers can hold. Leading zeros and a point
without digits on one side are let pass. -/
def number (r : Rest) : Option (Json × Rest) :=
  let cs := (r.takeWhile isNumeralByte).map fun b => Char.ofNat b.toNat
  match Decimal.ofChars? cs with
  | some d => if d.tooLarge then none else some (.num (String.ofList cs), r.dropWhile isNumeralByte)
  | none => none

def maxDepth : Nat := 10000

def key (r : Rest) : Option (String × Rest) :=
  match skipBlank r with
  | 34 :: r => (string r).map fun (t, r) => (t.toStringLossy, r)
  | r => (word? "null" r).map fun r => ("", r)

mutual

def value : Nat → Nat → Rest → Option (Json × Rest)
  | 0, _, _ => none
  | fuel + 1, depth, r =>
      match skipBlank r with
      | [] => none
      | b :: r =>
          if b == 123 || b == 91 then
            if maxDepth ≤ depth then none
            else if b == 123 then
              match skipBlank r with
              | 125 :: r => some (.obj [], r)
              | r => (fields fuel (depth + 1) #[] r).map fun (fs, r) => (.obj fs.toList, r)
            else
              match skipBlank r with
              | 93 :: r => some (.arr [], r)
              | r => (items fuel (depth + 1) #[] r).map fun (xs, r) => (.arr xs.toList, r)
          else if b == 34 then (string r).map fun (t, r) => (.str t, r)
          else if b == 116 then (word? "rue" r).map fun r => (.bool true, r)
          else if b == 102 then (word? "alse" r).map fun r => (.bool false, r)
          else if b == 110 then (word? "ull" r).map fun r => (.null, r)
          else if b == 45 || (48 ≤ b && b ≤ 57) then number (b :: r)
          else none

def items : Nat → Nat → Array Json → Rest → Option (Array Json × Rest)
  | 0, _, _, _ => none
  | fuel + 1, depth, acc, r => do
      let (j, r) ← value fuel depth r
      match skipBlank r with
      | 93 :: r => some (acc.push j, r)
      | 44 :: r => items fuel depth (acc.push j) r
      | _ => none

def fields : Nat → Nat → Array (String × Json) → Rest → Option (Array (String × Json) × Rest)
  | 0, _, _, _ => none
  | fuel + 1, depth, acc, r => do
      let (name, r) ← key r
      match skipBlank r with
      | 58 :: r =>
          let (j, r) ← value fuel depth r
          match skipBlank r with
          | 125 :: r => some (acc.push (name, j), r)
          | 44 :: r => fields fuel depth (acc.push (name, j)) r
          | _ => none
      | _ => none

end

/-- A text may be cut from a stream of values, so one separator in front of the
value is passed over. -/
def skipSeparator (r : Rest) : Rest :=
  match skipBlank r with
  | 44 :: r | 58 :: r => r
  | r => r

end Reader

/-- The first JSON value of a text, with all fields as they are written. What
follows it is not looked at. Every call of a reader takes a byte or follows one
that did, which bounds how deep they nest. -/
def read? (t : Text) : Option Json :=
  (Reader.value (2 * t.size + 2) 0 (Reader.skipSeparator t.toList)).map Prod.fst

def lastFields : List (String × Json) → List (String × Json)
  | [] => []
  | f :: rest => if rest.any (·.1 == f.1) then lastFields rest else f :: lastFields rest

mutual

/-- The value with every name once in each of its objects: the last field of a
name counts. -/
def settled : Json → Json
  | .arr items => .arr (settledItems items)
  | .obj fields => .obj (lastFields (settledFields fields))
  | j => j

def settledItems : List Json → List Json
  | [] => []
  | j :: rest => settled j :: settledItems rest

def settledFields : List (String × Json) → List (String × Json)
  | [] => []
  | (key, j) :: rest => (key, settled j) :: settledFields rest

end

end Json

end MqTree
