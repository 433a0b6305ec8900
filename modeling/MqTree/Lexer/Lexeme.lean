import MqTree.Text.Rune
import MqTree.Token

namespace MqTree

open Text

/-! One token's worth of text, recognised at a known start. Each recogniser
also says how far it looked, so that a caller can tell which bytes the answer
depends on. -/

def isDigit (b : UInt8) : Bool := byte '0' ≤ b && b ≤ byte '9'

def isLetter (b : UInt8) : Bool :=
  (byte 'a' ≤ b && b ≤ byte 'z') || (byte 'A' ≤ b && b ≤ byte 'Z') || b == byte '_'

def isWordByte (b : UInt8) : Bool := isLetter b || isDigit b

def isBlank (b : UInt8) : Bool := b == 32 || (9 ≤ b && b ≤ 13)

def keywordTexts : List (Text × String) := keywords.map fun word => (ofString word, word)

structure Lexeme where
  kind : TokenKind
  lit : String
  stop : Nat
  reach : Nat
  deriving DecidableEq, Repr

namespace Lexeme

/-- One past what a look at offset `i` examines. The end of input counts as a
byte behind the text. -/
def seen (src : Text) (i : Nat) : Nat := min i src.size + 1

def ending (src : Text) : Lexeme := ⟨.endOfInput, "", src.size, src.size + 1⟩

def comment (src : Text) (start : Nat) : Lexeme :=
  let stop := src.skipWhile (· != newline) (start + 1)
  ⟨.comment, "", stop, seen src stop⟩

def number (src : Text) (start : Nat) : Lexeme :=
  let whole := src.skipWhile isDigit (start + 1)
  if src[whole]? = some (byte '.') then
    if (src[whole + 1]?).any isDigit then
      let stop := src.skipWhile isDigit (whole + 2)
      ⟨.number, "", stop, seen src stop⟩
    else
      ⟨.number, "", whole, seen src (whole + 1)⟩
  else
    ⟨.number, "", whole, seen src whole⟩

def word (src : Text) (start : Nat) : Lexeme :=
  let stop := src.skipWhile isWordByte (start + 1)
  let text := src.extract start stop
  if text = #[byte 's'] ∧ src[stop]? = some (byte '"') then
    ⟨.punctuation, "s\"", stop + 1, stop + 1⟩
  else
    match keywordTexts.lookup text with
    | some keyword => ⟨.keyword, keyword, stop, seen src stop⟩
    | none => ⟨.identifier, "", stop, seen src stop⟩

/-- The first quote among the next `n` positions from `i` on that no backslash
escapes. -/
def closingQuote? (src : Text) : Nat → Nat → Option Nat
  | 0, _ => none
  | n + 1, i =>
      match src[i]? with
      | none => none
      | some b =>
          if b = byte '"' then some i
          else closingQuote? src n (if b = byte '\\' then i + 2 else i + 1)

/-- A string literal may span lines. Without a closing quote it is an error
that ends with its first line, known only at the end of input. -/
def plainString (src : Text) (start : Nat) : Lexeme :=
  match closingQuote? src (src.size - start) (start + 1) with
  | some quote => ⟨.string, "", quote + 1, quote + 1⟩
  | none => ⟨.error, "", src.skipWhile (· != newline) start, src.size + 1⟩

def mark (src : Text) (start : Nat) (first : UInt8) : Lexeme :=
  match (src[start + 1]?).bind (longOperator? first) with
  | some op => ⟨.punctuation, op, start + 2, start + 2⟩
  | none =>
      match mark? first with
      | some op => ⟨.punctuation, op, start + 1, seen src (start + 1)⟩
      | none =>
          let stop := start + ((Rune.at? src start).map Rune.width).getD 1
          ⟨.error, "", stop, max (seen src (start + 1)) stop⟩

def ofCode (src : Text) (start : Nat) : Lexeme :=
  match src[start]? with
  | none => ending src
  | some b =>
      if b = byte '#' then comment src start
      else if b = byte '"' then plainString src start
      else if isDigit b then number src start
      else if isLetter b then word src start
      else mark src start b

def followsDollar (b : UInt8) : Bool := b == byte '$' || b == byte '\x7b'

/-- The end of string content among the next `n` positions from `i` on. -/
def contentEnd (src : Text) : Nat → Nat → Nat
  | 0, i => i
  | n + 1, i =>
      match src[i]? with
      | none => i
      | some b =>
          if b = byte '"' then i
          else if b = byte '$' ∧ (src[i + 1]?).any followsDollar then i
          else if b = byte '\\' ∧ i + 1 < src.size then contentEnd src n (i + 2)
          else contentEnd src n (i + 1)

def content (src : Text) (start : Nat) : Lexeme :=
  let stop := contentEnd src (src.size - start) start
  ⟨.stringContent, "", stop, seen src (if src[stop]? = some (byte '$') then stop + 1 else stop)⟩

def ofString (src : Text) (start : Nat) : Lexeme :=
  match src[start]? with
  | none => ending src
  | some b =>
      if b = byte '"' then ⟨.punctuation, "\"", start + 1, start + 1⟩
      else if b = byte '$' ∧ src[start + 1]? = some (byte '$') then
        ⟨.escapedDollar, "", start + 2, start + 2⟩
      else if b = byte '$' ∧ src[start + 1]? = some (byte '\x7b') then
        ⟨.punctuation, "$\x7b", start + 2, start + 2⟩
      else content src start

end Lexeme

end MqTree
