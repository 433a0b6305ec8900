import MqTree.Sorted

namespace MqTree

/-! Productions of a grammar. Wherever a field name is asked for, the empty
name stands for no field. -/

/-- One way to go on after the head of a suffixed expression: the `tail`
follows, and both together make a node of kind `kind` in which the head takes
the field `headField`. -/
structure Suffix (α : Type) where
  kind : String
  headField : String
  tail : α

inductive Expr where
  /-- One terminal, whose text must also be one of `words` if there are any.
  The leaf is named after the terminal. -/
  | tok (sym : String) (words : List String)
  | leaf (kind sym : String)
  | ref (name : String)
  | seq (items : List Expr)
  | choice (alts : List Expr)
  /-- Alternatives that may overlap, attempted in order. -/
  | ordered (alts : List Expr)
  | opt (body : Expr)
  | rep (body : Expr) (min : Int)
  /-- Any number of elements with separators between them, and perhaps one
  more separator behind the last. -/
  | sepBy (elem : Expr) (sep : String) (trailing : Bool)
  | field (name : String) (body : Expr)
  | immediate (body : Expr)
  | sameLine (body : Expr)
  /-- A list of statements up to one of the closers or the end of input. -/
  | stmts (field : String) (item : Expr) (closers : List String)
  /-- A head and what continues it. With `many`, continuations go on as long
  as there are any, those of one kind in one node. -/
  | suffixed (head : Expr) (many : Bool) (suffixes : List (Suffix Expr))
  /-- Operands joined by left associative operators with binding powers. -/
  | binary (kind : String) (operand : Expr) (ops : List (String × UInt8))
  | unary (kind : String) (ops : List String) (operand : Expr)
  deriving Inhabited

namespace Expr

mutual

def parts : Expr → List Expr
  | e@(.tok _ _) | e@(.leaf _ _) | e@(.ref _) => [e]
  | e@(.seq items) => e :: partsOfAll items
  | e@(.choice alts) | e@(.ordered alts) => e :: partsOfAll alts
  | e@(.opt body) | e@(.rep body _) | e@(.sepBy body _ _) | e@(.field _ body)
  | e@(.immediate body) | e@(.sameLine body) | e@(.stmts _ body _)
  | e@(.binary _ body _) | e@(.unary _ _ body) => e :: parts body
  | e@(.suffixed head _ suffixes) => e :: (parts head ++ partsOfTails suffixes)

def partsOfAll : List Expr → List Expr
  | [] => []
  | e :: es => parts e ++ partsOfAll es

def partsOfTails : List (Suffix Expr) → List Expr
  | [] => []
  | ⟨_, _, tail⟩ :: rest => parts tail ++ partsOfTails rest

end

/-- The terminals that an expression mentions itself, outside its parts. The
operators of a binary expression come in alphabetical order. -/
def terminals : Expr → List String
  | .tok sym _ | .leaf _ sym => [sym]
  | .sepBy _ sep _ => [sep]
  | .stmts _ _ closers => closers
  | .binary _ _ ops => sortedBy (fun a b => decide (a < b)) (ops.map Prod.fst)
  | .unary _ ops _ => ops
  | _ => []

def weight (e : Expr) : Nat :=
  e.parts.foldl (fun n part => match part with | .rep _ min => n + 1 + min.toNat | _ => n + 1) 0

mutual

def nullable (known : List String) : Expr → Bool
  | .tok _ _ | .leaf _ _ => false
  | .ref name => known.contains name
  | .seq items => allNullable known items
  | .choice alts | .ordered alts => anyNullable known alts
  | .opt _ | .sepBy _ _ _ | .stmts _ _ _ => true
  | .rep body min => min == 0 || nullable known body
  | .field _ body | .immediate body | .sameLine body => nullable known body
  | .suffixed head _ _ => nullable known head
  | .binary _ operand _ | .unary _ _ operand => nullable known operand

def allNullable (known : List String) : List Expr → Bool
  | [] => true
  | e :: es => nullable known e && allNullable known es

def anyNullable (known : List String) : List Expr → Bool
  | [] => false
  | e :: es => nullable known e || anyNullable known es

end

end Expr

/-- A named production. A hidden rule splices what it matches into the node
around it; any other makes a node of kind `kind`, or `name` if that is empty. -/
structure Rule where
  name : String
  kind : String
  hidden : Bool
  label : String
  body : Expr

namespace Rule

def nodeKind (r : Rule) : String := if r.kind = "" then r.name else r.kind

def expected (r : Rule) : String :=
  if r.label ≠ "" then r.label
  else if r.hidden then String.ofList (r.name.toList.drop 1)
  else r.nodeKind

end Rule

structure Grammar where
  name : String
  start : String
  rules : List Rule

end MqTree
