import MqTree.Json.Reader

namespace MqTree

namespace Yaml

/-! What the words of a YAML document stand for, and how quoted ones are
read. -/

def sign : List Char → Bool × List Char
  | '-' :: cs => (true, cs)
  | '+' :: cs => (false, cs)
  | cs => (false, cs)

def digitValue? (base : Nat) (c : Char) : Option Nat :=
  let n :=
    if c.isDigit then c.toNat - '0'.toNat
    else if 'a' ≤ c.toLower ∧ c.toLower ≤ 'f' then c.toLower.toNat - 'a'.toNat + 10
    else base
  if n < base then some n else none

def digitsValue (base : Nat) (cs : List Char) : Nat :=
  ((cs.mapM (digitValue? base)).map (·.foldl (fun n d => base * n + d) 0)).getD 0

/-- The number nearest to `n` that fits into 64 bits, with a sign bit if the
numeral has a sign. -/
def clamp (signed negative : Bool) (n : Nat) : Int :=
  if negative then -(min n (twoPow 63) : Nat)
  else if signed then (min n (twoPow 63 - 1) : Nat)
  else (min n (twoPow 64 - 1) : Nat)

def isFraction (cs : List Char) : Bool :=
  let rest := cs.dropWhile fun c => c.isDigit
  match rest with
  | '.' :: rest =>
      let tail := rest.dropWhile fun c => c.isDigit
      match tail with
      | [] => true
      | mark :: tail =>
          (mark == 'e' || mark == 'E') && tail.all fun c => c.isDigit || c == '-' || c == '+'
  | _ => false

/-- A whole number in base ten, or in the base that its first characters
tell. -/
def whole? (negative signed : Bool) (cs : List Char) : Option Int :=
  let isHex (c : Char) := (digitValue? 16 c).isSome
  match cs with
  | '0' :: 'x' :: ds => if ds.all isHex then some (clamp signed negative (digitsValue 16 ds)) else none
  | '0' :: 'o' :: ds =>
      if ds.all Char.isDigit then some (clamp signed negative (digitsValue 8 ds)) else none
  | '0' :: 'b' :: ds =>
      if ds.all Char.isDigit then some (clamp signed negative (digitsValue 2 ds)) else none
  | '0' :: d :: ds =>
      if (d :: ds).all Char.isDigit then some (clamp signed negative (digitsValue 8 (d :: ds)))
      else none
  | [] => none
  | ds => if ds.all Char.isDigit then some (clamp signed negative (digitsValue 10 ds)) else none

/-- The number that a word spells. Underscores between digits do not count. -/
def number? (word : String) : Option Json :=
  match word.toList with
  | '_' :: _ => none
  | cs =>
      let (negative, digits) := sign (cs.filter (· != '_'))
      let signed := digits.length < (cs.filter (· != '_')).length
      if isFraction digits && digits != ['.'] then
        some (.num ((if negative then "-" else "") ++ String.ofList digits))
      else (whole? negative signed digits).map Json.int

def infinities : List String :=
  [".inf", ".Inf", ".INF", "-.inf", "-.Inf", "-.INF", ".nan", ".NaN", ".NAN"]

def resolve (word : String) : Json :=
  if ["", "~", "null", "Null", "NULL"].contains word then .null
  else if ["true", "True", "TRUE"].contains word then .bool true
  else if ["false", "False", "FALSE"].contains word then .bool false
  else if infinities.contains word then .num word
  else (number? word).getD (.string word)

def isBlank (c : Char) : Bool := c == ' ' || c == '\t'

/-- Drops a line break inside quotes with the blanks around it. It counts as
one blank, and each further break as itself. -/
def foldBreak (acc rest : List Char) : List Char × List Char :=
  let after := rest.dropWhile fun c => isBlank c || c == '\n' || c == '\r'
  let breaks := ((rest.take (rest.length - after.length)).filter (· == '\n')).length
  let before := acc.dropWhile isBlank
  (if breaks = 0 then ' ' :: before else List.replicate breaks '\n' ++ before, after)

def singleQuoted : Nat → List Char → List Char → Option (String × List Char)
  | 0, _, _ => none
  | fuel + 1, acc, cs =>
      match cs with
      | [] => none
      | '\'' :: '\'' :: rest => singleQuoted fuel ('\'' :: acc) rest
      | '\'' :: rest => some (String.ofList acc.reverse, rest)
      | '\n' :: rest =>
          let (acc, rest) := foldBreak acc rest
          singleQuoted fuel acc rest
      | c :: rest => singleQuoted fuel (c :: acc) rest

def escapes : List (Char × Char) :=
  [('0', '\x00'), ('a', '\x07'), ('b', '\x08'), ('t', '\t'), ('n', '\n'), ('v', '\x0b'),
    ('f', '\x0c'), ('r', '\r'), ('e', '\x1b'), (' ', ' '), ('"', '"'), ('/', '/'), ('\\', '\\'),
    ('N', '\u0085'), ('_', '\u00a0'), ('L', '\u2028'), ('P', '\u2029')]

def hexWidths : List (Char × Nat) := [('x', 2), ('u', 4), ('U', 8)]

def doubleQuoted : Nat → List Char → List Char → Option (String × List Char)
  | 0, _, _ => none
  | fuel + 1, acc, cs =>
      match cs with
      | [] => none
      | '"' :: rest => some (String.ofList acc.reverse, rest)
      | '\n' :: rest =>
          let (acc, rest) := foldBreak acc rest
          doubleQuoted fuel acc rest
      | '\\' :: '\n' :: rest => doubleQuoted fuel acc (rest.dropWhile isBlank)
      | '\\' :: letter :: rest =>
          match escapes.lookup letter, hexWidths.lookup letter with
          | some c, _ => doubleQuoted fuel (c :: acc) rest
          | none, some width =>
              let digits := rest.take width
              if digits.length = width && digits.all (fun c => (digitValue? 16 c).isSome) then
                doubleQuoted fuel (Char.ofNat (digitsValue 16 digits) :: acc) (rest.drop width)
              else none
          | none, none => none
      | c :: rest => doubleQuoted fuel (c :: acc) rest

def quotedWord? (cs : List Char) : Option (String × List Char) :=
  match cs with
  | '"' :: rest => doubleQuoted (rest.length + 1) [] rest
  | '\'' :: rest => singleQuoted (rest.length + 1) [] rest
  | _ => none

end Yaml

end MqTree
