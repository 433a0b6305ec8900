import MqTree.Text.Printable
import MqTree.Text.Rune

namespace MqTree

/-! Text between double quotes on one line: printable characters stand for
themselves, everything else is escaped. -/

namespace Quoted

def hexDigit (n : Nat) : Char := Nat.digitChar (n % 16)

def hex (width n : Nat) : String :=
  String.ofList ((List.range width).reverse.map fun i => hexDigit (n >>> (4 * i)))

def letters : List (Char × String) :=
  [('"', "\\\""), ('\\', "\\\\"), ('\x07', "\\a"), ('\x08', "\\b"), ('\x0c', "\\f"),
    ('\n', "\\n"), ('\r', "\\r"), ('\t', "\\t"), ('\x0b', "\\v")]

def char (c : Char) : String :=
  match letters.lookup c with
  | some escape => escape
  | none =>
      if isPrintable c then c.toString
      else if c.toNat < 32 || c.toNat == 127 then "\\x" ++ hex 2 c.toNat
      else if c.toNat < 65536 then "\\u" ++ hex 4 c.toNat
      else "\\U" ++ hex 8 c.toNat

/-- A stray byte is written as its value. -/
def rune : Rune × Text → String
  | (⟨some c, _⟩, _) => char c
  | (⟨none, _⟩, bytes) => String.join (bytes.toList.map fun b => "\\x" ++ hex 2 b.toNat)

end Quoted

def Text.quoted (t : Text) : String :=
  "\"" ++ String.join ((Rune.list t).map Quoted.rune) ++ "\""

def quoted (s : String) : String := (Text.ofString s).quoted

end MqTree
