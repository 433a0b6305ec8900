import MqTree.Grammar.Table
import MqTree.Lexer.Basic
import MqTree.Parser.Reuse

namespace MqTree.Parser

/-! What a parse works on: one token of lookahead, the comments before it, and
the children of nodes that are not finished yet. -/

structure Item where
  field : String
  start : Int
  node : Subtree

namespace Item

def stop (it : Item) : Int := it.start + it.node.length

def edge (start : Int) (it : Item) : Edge Subtree := ⟨it.field, it.start - start, it.node⟩

/-- Comments and errors never take a field, and no field is taken twice. -/
def takesField (it : Item) : Bool :=
  it.field == "" && it.node.kind != commentSymbol && it.node.kind != errorKind

def withField (field : String) (it : Item) : Item :=
  if it.takesField then { it with field } else it

end Item

def withField (field : String) (items : List Item) : List Item :=
  if field = "" then items else items.map (Item.withField field)

/-- What a parse did that cannot be seen in its result alone. -/
inductive Event where
  | backtracked (token : Token)
  | missing (label : String) (token : Token)
  | skipped (count : Nat) (token : Token)
  | unexpected (count : Nat) (token : Token)
  | reused (start : Nat) (node : Subtree)

namespace Event

def message? : Event → Option String
  | backtracked token => some s!"backtrack at {token.render}"
  | missing label token => some s!"missing {label} before {token.render}"
  | skipped count token => some s!"skipped {count} tokens to {token.render}"
  | unexpected count token => some s!"unexpected {count} tokens before {token.render}"
  | reused .. => none

end Event

structure Context where
  table : Table
  src : Text
  window : Nat
  /-- Whether the parse is an attempt that may fail, rather than one that must
  recover. -/
  speculating : Bool

structure State where
  lexer : Lexer
  token : Token
  terminal : Option Nat
  atBase : Bool
  /-- The comments before the token, which no node owns yet. -/
  pending : List Item
  prevEnd : Nat
  reuse : ReuseIndex
  trace : List Event

namespace State

def log (s : State) (e : Event) : State := { s with trace := e :: s.trace }

/-- Back to an earlier state. How far the lexer looked and what happened on the
way stays known. -/
def rewind (s : State) (earlier : State) : State :=
  { earlier with
    lexer := s.lexer.restore earlier.lexer.save
    reuse := s.reuse
    trace := s.trace }

def advanceUpTo (c : Context) : Nat → State → State
  | 0, s => s
  | n + 1, s =>
      let (token, lexer) := s.lexer.next c.src
      if token.kind = .comment then
        let comment : Item := ⟨"", token.start, .ofToken commentSymbol true token⟩
        advanceUpTo c n { s with lexer, pending := s.pending ++ [comment] }
      else
        { s with
          lexer
          token
          terminal := c.table.termId? token.symbol
          atBase := s.lexer.atBase }

def advance (c : Context) (s : State) : State := s.advanceUpTo c (c.src.size + 1)

def initial (c : Context) (reuse : ReuseIndex) : State :=
  State.advance c
    { lexer := .initial
      token := ⟨.endOfInput, "", 0, 0, 1, 1, false⟩
      terminal := none
      atBase := true
      pending := []
      prevEnd := 0
      reuse
      trace := [] }

/-- Turns the token into a leaf, behind the comments before it. -/
def consume (c : Context) (s : State) (field kind : String) (named : Bool) :
    List Item × State :=
  (s.pending ++ [⟨field, s.token.start, .ofToken kind named s.token⟩],
    State.advance c { s with pending := [], prevEnd := s.token.stop })

def consumeAny (c : Context) (s : State) : List Item × State :=
  s.consume c "" s.token.symbol (isNamedSymbol s.token.symbol)

def lookahead (s : State) (stop : Int) : Int := max (s.lexer.reach - stop) 0

/-- A node with these children. Without any it is empty and stands where the
last token ended. -/
def finish (s : State) (kind field : String) (children : List Item) : Item :=
  match children with
  | [] => ⟨field, s.prevEnd, .node kind true 0 0 []⟩
  | first :: rest =>
      let stop := ((first :: rest).getLast (List.cons_ne_nil first rest)).stop
      ⟨field, first.start,
        .node kind true (stop - first.start) (s.lookahead stop)
          ((first :: rest).map (Item.edge first.start))⟩

def accepts (c : Context) (s : State) (words : List String) : Bool :=
  words.isEmpty || words.any fun word => Text.ofString word == s.token.text c.src

def among (s : State) (set : TermSet) : Bool :=
  match s.terminal with
  | some id => set.getLsbD id
  | none => false

mutual

/-- Whether the token can start an expression. Unlike the set of terminals that
can, this heeds what an expression demands of the first token besides. -/
def canStart (c : Context) (s : State) : Expr → Bool
  | .sameLine body => !s.token.newlineBefore && canStart c s body
  | .immediate body => s.token.start == s.prevEnd && canStart c s body
  | .field _ body => canStart c s body
  | .tok sym words => s.among (c.table.terminal sym) && s.accepts c words
  | .seq items => sequenceCanStart c s items
  | .choice alts | .ordered alts => anyCanStart c s alts
  | e => s.among (c.table.first e)

def sequenceCanStart (c : Context) (s : State) : List Expr → Bool
  | [] => false
  | e :: es => canStart c s e || (c.table.nullable e && sequenceCanStart c s es)

def anyCanStart (c : Context) (s : State) : List Expr → Bool
  | [] => false
  | e :: es => canStart c s e || anyCanStart c s es

end

def atListEnd (s : State) (closers : List String) : Bool :=
  s.token.isEnd || closers.contains s.token.symbol

/-- Whether the token may be skipped on the way to something expected. Block
ends, closing brackets and new lines are left for what encloses them. -/
def skippable (s : State) : Bool :=
  !(s.token.isEnd || s.token.newlineBefore || s.token.isKeyword "end" ||
    (s.token.kind == .punctuation && [")", "]", "\x7d"].contains s.token.lit))

end State

end MqTree.Parser
