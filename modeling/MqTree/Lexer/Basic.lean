import MqTree.Fault
import MqTree.Lexer.Lexeme

namespace MqTree

/-- What the lexer is inside of: the content of an interpolated string, or an
interpolated expression with so many braces still open. -/
inductive Frame where
  | string
  | hole (depth : Nat)
  deriving DecidableEq, Repr

namespace Frame

def after (lit : String) (frames : List Frame) : List Frame :=
  match frames with
  | .string :: rest =>
      if lit = "\"" then rest
      else if lit = "$\x7b" then .hole 0 :: .string :: rest
      else frames
  | .hole depth :: rest =>
      if lit = "s\"" then .string :: frames
      else if lit = "\x7b" then .hole (depth + 1) :: rest
      else if lit = "\x7d" then
        match depth with
        | 0 => rest
        | depth + 1 => .hole depth :: rest
      else frames
  | [] => if lit = "s\"" then [.string] else []

end Frame

structure Cursor where
  place : Place
  frames : List Frame
  deriving DecidableEq, Repr

structure Lexer extends Cursor where
  /-- One past the furthest byte examined so far, or promised to be. It
  survives `restore`, and never decreases. -/
  reach : Nat
  deriving DecidableEq, Repr

namespace Lexer

def initial : Lexer := ⟨⟨.origin, []⟩, 0⟩

def start (src : Text) (offset : Int) : Except Violation Lexer :=
  if 0 ≤ offset ∧ offset ≤ src.size then
    .ok ⟨⟨Place.origin.moveTo src offset.toNat, []⟩, 0⟩
  else
    .error (.startOutOfRange offset src.size)

def offset (l : Lexer) : Nat := l.place.index

def atBase (l : Lexer) : Bool := l.frames.isEmpty

def save (l : Lexer) : Cursor := l.toCursor

def restore (l : Lexer) (c : Cursor) : Lexer := { l with toCursor := c }

def touch (l : Lexer) (stop : Int) : Lexer := { l with reach := max l.reach stop.toNat }

def seek (src : Text) (l : Lexer) (pos : Int) : Except Violation Lexer :=
  if 0 ≤ pos ∧ pos ≤ src.size then
    .ok ⟨⟨l.place.moveTo src pos.toNat, []⟩, l.reach⟩
  else
    .error (.seekOutOfRange pos src.size)

def emit (src : Text) (l : Lexer) (place : Place) (newline : Bool) (x : Lexeme) :
    Token × Lexer :=
  (⟨x.kind, x.lit, place.index, x.stop, place.line, place.point.column, newline⟩,
    ⟨⟨place.moveTo src x.stop, Frame.after x.lit l.frames⟩, max l.reach x.reach⟩)

/-- The next token. String content starts right where the lexer is; elsewhere
blanks are skipped first. -/
def next (src : Text) (l : Lexer) : Token × Lexer :=
  match l.frames with
  | .string :: _ => l.emit src l.place false (Lexeme.ofString src l.offset)
  | _ =>
      let place := l.place.moveTo src (src.skipWhile isBlank l.offset)
      l.emit src place (l.place.line != place.line) (Lexeme.ofCode src place.index)

def tokens (src : Text) : Nat → Lexer → List Token
  | 0, _ => []
  | n + 1, l =>
      let (token, rest) := l.next src
      if token.isEnd then [token] else token :: tokens src n rest

/-- All tokens from `offset` on, the end of input included. Every other token
takes at least one byte, so there are at most `src.size + 1`. -/
def tokenize (src : Text) (offset : Int) : Except Violation (List Token) :=
  (start src offset).map (tokens src (src.size + 1))

end Lexer

end MqTree
