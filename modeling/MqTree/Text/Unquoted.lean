import MqTree.Json.Reader
import MqTree.Text.Quoted

namespace MqTree

namespace Unquoted

def letters : List (Char × Char) :=
  [('a', '\x07'), ('b', '\x08'), ('f', '\x0c'), ('n', '\n'), ('r', '\r'), ('t', '\t'),
    ('v', '\x0b'), ('\\', '\\'), ('"', '"')]

def digit? (base : Nat) (c : Char) : Option Nat :=
  let n :=
    if c.isDigit then c.toNat - '0'.toNat
    else if 'a' ≤ c.toLower ∧ c.toLower ≤ 'f' then c.toLower.toNat - 'a'.toNat + 10
    else base
  if n < base then some n else none

def number? (base width : Nat) (cs : List Char) : Option Nat :=
  let digits := cs.take width
  if digits.length < width then none
  else (digits.mapM (digit? base)).map (·.foldl (fun n d => base * n + d) 0)

def escape? : List Char → Option (Text × Nat)
  | 'x' :: cs => (number? 16 2 cs).map fun n => (#[n.toUInt8], 3)
  | 'u' :: cs => (number? 16 4 cs).bind fun n =>
      if n.isValidChar then some (Text.ofString (Char.ofNat n).toString, 5) else none
  | 'U' :: cs => (number? 16 8 cs).bind fun n =>
      if n.isValidChar then some (Text.ofString (Char.ofNat n).toString, 9) else none
  | c :: cs =>
      match letters.lookup c with
      | some e => some (Text.ofString e.toString, 1)
      | none => (number? 8 3 (c :: cs)).bind fun n => if n < 256 then some (#[n.toUInt8], 3) else none
  | [] => none

/-- The characters up to the closing quote, which must be the last. `skip` more
belong to an escape that is read already. -/
def from? (acc : Text) : Nat → List Char → Option Text
  | _, [] => none
  | skip + 1, _ :: cs => from? acc skip cs
  | 0, c :: cs =>
      if c == '"' then if cs.isEmpty then some acc else none
      else if c == '\n' then none
      else if c == '\\' then
        match escape? cs with
        | some (t, width) => from? (acc ++ t) width cs
        | none => none
      else from? (acc ++ Text.ofString c.toString) 0 cs

end Unquoted

/-- The text that stands between quotes. Text that does not start with a quote
stands for itself. -/
def unquoted? (s : String) : Option String :=
  match s.toList with
  | '"' :: cs => (Unquoted.from? #[] 0 cs).map Text.toStringLossy
  | _ => some s

end MqTree
