import MqTree.Token

namespace MqTree

/-- What attaches a child to its parent. The field belongs to the edge, so that
a child can be shared by parents that use it in different roles. -/
structure Edge (α : Type) where
  field : String
  offset : Int
  node : α

/-- What a later parse must know to take a subtree over. -/
structure Scope where
  /-- How many bytes past the end were examined to build the subtree. -/
  lookahead : Int
  statement : Bool
  deriving DecidableEq, Repr

/-- A syntax node that knows its length but not its position, so that it can
stand at different positions in different trees. -/
inductive Subtree where
  | leaf (kind : String) (named : Bool) (length : Int) (token : TokenKind) (lit : String)
      (scope : Scope)
  | missing (expected : String) (scope : Scope)
  | branch (kind : String) (named : Bool) (length : Int) (children : List (Edge Subtree))
      (scope : Scope)

namespace Subtree

def kind : Subtree → String
  | .leaf kind .. | .branch kind .. => kind
  | .missing .. => missingKind

def named : Subtree → Bool
  | .leaf _ named .. | .branch _ named .. => named
  | .missing .. => true

def length : Subtree → Int
  | .leaf _ _ length .. | .branch _ _ length .. => length
  | .missing .. => 0

def children : Subtree → List (Edge Subtree)
  | .branch _ _ _ children _ => children
  | _ => []

def scope : Subtree → Scope
  | .leaf _ _ _ _ _ scope | .missing _ scope | .branch _ _ _ _ scope => scope

def isLeaf : Subtree → Bool
  | .leaf .. => true
  | _ => false

def isMissing (t : Subtree) : Bool := t.kind == missingKind

def isError (t : Subtree) : Bool := t.kind == errorKind

def expected : Subtree → String
  | .missing expected _ => expected
  | _ => ""

def ofToken (kind : String) (named : Bool) (token : Token) : Subtree :=
  .leaf kind named token.length token.kind token.lit ⟨0, false⟩

def placeholder (expected : String) : Subtree := .missing expected ⟨0, false⟩

def node (kind : String) (named : Bool) (length lookahead : Int)
    (children : List (Edge Subtree)) : Subtree :=
  .branch kind named length children ⟨lookahead, false⟩

def asStatement (lookahead : Int) : Subtree → Subtree
  | .leaf kind named length token lit _ => .leaf kind named length token lit ⟨lookahead, true⟩
  | .missing expected _ => .missing expected ⟨lookahead, true⟩
  | .branch kind named length children _ => .branch kind named length children ⟨lookahead, true⟩

mutual

def hasError : Subtree → Bool
  | .leaf _ _ _ token _ _ => token == .error
  | .missing .. => true
  | .branch kind _ _ children _ => kind == errorKind || anyHasError children

def anyHasError : List (Edge Subtree) → Bool
  | [] => false
  | ⟨_, _, node⟩ :: rest => hasError node || anyHasError rest

end

end Subtree

structure Node where
  sub : Subtree
  start : Int

namespace Node

def kind (n : Node) : String := n.sub.kind

def stop (n : Node) : Int := n.start + n.sub.length

def child (n : Node) (e : Edge Subtree) : Node := ⟨e.node, n.start + e.offset⟩

def children (n : Node) : List Node := n.sub.children.map n.child

def child? (n : Node) (i : Int) : Option (Edge Subtree) :=
  if i < 0 then none else n.sub.children[i.toNat]?

def namedChildren (n : Node) : List Node :=
  (n.sub.children.filter (·.node.named)).map n.child

def namedChild? (n : Node) (i : Int) : Option Node :=
  if i < 0 then none else n.namedChildren[i.toNat]?

def childrenInField (n : Node) (field : String) : List Node :=
  (n.sub.children.filter (·.field == field)).map n.child

def childInField? (n : Node) (field : String) : Option Node :=
  (n.childrenInField field).head?

end Node

structure Visit extends Node where
  depth : Nat
  parent : String
  field : String

namespace Subtree

mutual

def visits (depth : Nat) (parent field : String) (start : Int) : Subtree → List Visit
  | t@(.branch kind _ _ children _) =>
      ⟨⟨t, start⟩, depth, parent, field⟩ :: visitsOfChildren (depth + 1) kind start children
  | t => [⟨⟨t, start⟩, depth, parent, field⟩]

def visitsOfChildren (depth : Nat) (parent : String) (start : Int) :
    List (Edge Subtree) → List Visit
  | [] => []
  | ⟨field, offset, node⟩ :: rest =>
      visits depth parent field (start + offset) node ++ visitsOfChildren depth parent start rest

end

end Subtree

namespace Node

def visits (n : Node) : List Visit := n.sub.visits 0 "" "" n.start

def walk (n : Node) : List Node := n.visits.map Visit.toNode

/-- A walk that stops at its `limit`th node, and whether it got past all. -/
def walkUpTo (n : Node) (limit : Int) : List Node × Bool :=
  (n.walk.take (max limit 1).toNat, n.walk.length < limit)

def leaves (n : Node) : List Visit :=
  n.visits.filter fun v => v.sub.children.isEmpty && (v.sub.isLeaf || v.sub.isMissing)

end Node

end MqTree
