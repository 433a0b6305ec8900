import MqTree.Grammar.Table
import MqTree.Json.Basic

namespace MqTree

/-! The kinds of nodes that a grammar can produce, and what can stand in
them. -/

structure TypeRef where
  type : String
  named : Bool
  deriving DecidableEq, Repr

namespace TypeRef

def before (a b : TypeRef) : Bool :=
  if a.type = b.type then a.named && !b.named else decide (a.type < b.type)

def inOrder (refs : List TypeRef) : List TypeRef := sortedBy before refs.eraseDups

def json (r : TypeRef) : Json := .obj [("type", .string r.type), ("named", .bool r.named)]

end TypeRef

/-- One thing that can stand in a node, and under which field. -/
structure Slot where
  field : String
  ref : TypeRef
  deriving DecidableEq, Repr

namespace Expr

mutual

/-- What an expression puts into the node around it when `field` is in force.
`rule` tells what a reference puts there. -/
def slots (rule : String → String → List Slot) (field : String) : Expr → List Slot
  | .tok sym _ => [⟨field, sym, isNamedSymbol sym⟩]
  | .leaf kind _ => [⟨field, kind, true⟩]
  | .ref name => rule field name
  | .seq items => slotsOfAll rule field items
  | .choice alts | .ordered alts => slotsOfAll rule field alts
  | .opt body | .rep body _ | .sepBy body _ _ | .immediate body | .sameLine body =>
      slots rule field body
  | .field name body | .stmts name body _ => slots rule name body
  | .suffixed head _ suffixes =>
      suffixes.map (fun s => ⟨field, s.kind, true⟩) ++ slots rule field head
  | .binary kind operand _ | .unary kind _ operand =>
      ⟨field, kind, true⟩ :: slots rule field operand

def slotsOfAll (rule : String → String → List Slot) (field : String) : List Expr → List Slot
  | [] => []
  | e :: es => slots rule field e ++ slotsOfAll rule field es

end

end Expr

structure Content where
  owner : TypeRef
  slots : List Slot

namespace Table

/-- What a reference stands for: the node of a rule, or what a hidden rule
splices in. A rule on `path` is being spliced already and adds nothing. -/
def inline (t : Table) : Nat → List String → String → String → List Slot
  | 0, _, _, _ => []
  | n + 1, path, field, name =>
      match t.rule? name with
      | none => []
      | some r =>
          if !r.hidden then [⟨field, r.nodeKind, true⟩]
          else if path.contains name then []
          else r.body.slots (t.inline n (name :: path)) field

def slots (t : Table) (field : String) (e : Expr) : List Slot :=
  e.slots (t.inline (t.rules.length + 1) []) field

/-- The nodes that an expression makes itself, without a rule of their own. -/
def synthesized (t : Table) : Expr → List Content
  | .leaf kind _ => [⟨⟨kind, true⟩, []⟩]
  | .suffixed head many suffixes =>
      suffixes.map fun s =>
        ⟨⟨s.kind, true⟩,
          t.slots s.headField head ++
          (if many && 1 < suffixes.length then
            suffixes.map (fun other => ⟨s.headField, other.kind, true⟩) else []) ++
          t.slots "" s.tail⟩
  | .binary kind operand ops =>
      [⟨⟨kind, true⟩,
        (["left", "right"].flatMap fun side => ⟨side, kind, true⟩ :: t.slots side operand) ++
        ops.map (fun (op, _) => ⟨"operator", op, false⟩)⟩]
  | .unary kind ops operand =>
      [⟨⟨kind, true⟩,
        ⟨"operand", kind, true⟩ :: t.slots "operand" operand ++
        ops.map (⟨"operator", ·, false⟩)⟩]
  | _ => []

def contentsOfRule (t : Table) (r : Rule) : List Content :=
  (if r.hidden then [] else [⟨⟨r.nodeKind, true⟩, t.slots "" r.body⟩]) ++
    r.body.parts.flatMap t.synthesized

def contentsOfSymbols (t : Table) : List Content :=
  (t.symbols.filter (· != endSymbol)).map fun sym => ⟨⟨sym, isNamedSymbol sym⟩, []⟩

def contents (t : Table) : List Content :=
  t.rules.flatMap t.contentsOfRule ++ t.contentsOfSymbols

end Table

structure NodeType where
  ref : TypeRef
  extra : Bool
  fields : List (String × List TypeRef)
  /-- The named kinds that stand in it under no field. -/
  children : List TypeRef

namespace NodeType

def ofSlots (ref : TypeRef) (slots : List Slot) : NodeType :=
  let names := ((slots.map Slot.field).filter (· != "")).eraseDups
  { ref
    extra := ref == ⟨commentSymbol, true⟩
    fields := (sortedBy (fun a b => decide (a < b)) names).map fun name =>
      (name, TypeRef.inOrder ((slots.filter (·.field == name)).map Slot.ref))
    children := TypeRef.inOrder
      ((slots.filter fun s => s.field == "" && s.ref.named).map Slot.ref) }

def json (n : NodeType) : Json :=
  .obj ([("type", .string n.ref.type), ("named", .bool n.ref.named)] ++
    (if n.extra then [("extra", .bool true)] else []) ++
    (if n.fields.isEmpty then [] else
      [("fields", .obj (n.fields.map fun (name, refs) => (name, .arr (refs.map TypeRef.json))))]) ++
    (if n.children.isEmpty then [] else [("children", .arr (n.children.map TypeRef.json))]))

end NodeType

namespace Table

/-- Every kind of node with what can stand in it. Where several rules make
nodes of one kind, what they put there is taken together. -/
def catalog (t : Table) : List NodeType :=
  let contents := t.contents
  (TypeRef.inOrder (contents.map Content.owner)).map fun ref =>
    NodeType.ofSlots ref ((contents.filter (·.owner == ref)).flatMap Content.slots)

def catalogJson (t : Table) : Json := .arr (t.catalog.map NodeType.json)

end Table

end MqTree
