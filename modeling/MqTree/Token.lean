import MqTree.Text.Basic

namespace MqTree

inductive TokenKind where
  | endOfInput
  | identifier
  | number
  | string
  | keyword
  | punctuation
  | comment
  | stringContent
  | escapedDollar
  | error
  deriving DecidableEq, Repr

namespace TokenKind

def all : List TokenKind :=
  [endOfInput, identifier, number, string, keyword, punctuation, comment, stringContent,
    escapedDollar, error]

def name : TokenKind → String
  | endOfInput => "end_of_input"
  | identifier => "identifier"
  | number => "number"
  | string => "string"
  | keyword => "keyword"
  | punctuation => "punctuation"
  | comment => "comment"
  | stringContent => "string_content"
  | escapedDollar => "escaped_dollar"
  | error => "error_token"

def ofNumber? (n : Nat) : Option TokenKind := all[n]?

/-- The name of the kind numbered `n`. A number past the last kind is shown as
it is, and a negative one has no name. -/
def nameOfNumber? (n : Int) : Option String :=
  if n < 0 then none
  else some (((ofNumber? n.toNat).map name).getD s!"TokenKind({n})")

end TokenKind

structure Token where
  kind : TokenKind
  /-- The spelling of a keyword or a punctuation mark, empty for other kinds. -/
  lit : String
  start : Nat
  stop : Nat
  line : Nat
  column : Nat
  newlineBefore : Bool
  deriving DecidableEq, Repr

namespace Token

/-- The terminal that grammars match the token against: its spelling for
keywords and punctuation, the name of its kind otherwise. -/
def symbol (t : Token) : String :=
  match t.kind with
  | .keyword | .punctuation => t.lit
  | kind => kind.name

def length (t : Token) : Nat := t.stop - t.start

def text (src : Text) (t : Token) : Text := src.extract t.start t.stop

def render (t : Token) : String :=
  s!"{t.symbol}@{t.start}..{t.stop}({t.line}:{t.column})"

def isKeyword (t : Token) (word : String) : Bool :=
  t.kind == .keyword && t.lit == word

def isEnd (t : Token) : Bool := t.kind == .endOfInput

end Token

def keywords : List String :=
  ["let", "def", "end", "module", "import", "include", "if", "elif", "else", "match", "foreach",
    "while", "do", "break", "continue", "fn", "self", "nodes", "true", "false", "None", "_"]

def isKeyword (word : String) : Bool := keywords.contains word

def longOperators : List (Char × Char × String) :=
  [('|', '|', "||"), ('&', '&', "&&"), ('=', '=', "=="), ('!', '=', "!="), ('<', '=', "<="),
    ('>', '=', ">="), ('.', '.', ".."), (':', ':', "::")]

def marks : List (Char × String) :=
  [('|', "|"), ('<', "<"), ('>', ">"), ('+', "+"), ('-', "-"), ('*', "*"), ('/', "/"), ('%', "%"),
    ('!', "!"), ('=', "="), ('.', "."), (':', ":"), (';', ";"), (',', ","), ('(', "("), (')', ")"),
    ('[', "["), (']', "]"), ('\x7b', "\x7b"), ('\x7d', "\x7d")]

def longOperator? (a b : UInt8) : Option String :=
  longOperators.findSome? fun (x, y, op) =>
    if Text.byte x == a && Text.byte y == b then some op else none

def mark? (a : UInt8) : Option String :=
  marks.findSome? fun (x, op) => if Text.byte x == a then some op else none

/-! The kinds of nodes with a meaning of their own. -/

def sourceFile : String := "source_file"

def errorKind : String := "ERROR"

def missingKind : String := "MISSING"

end MqTree
