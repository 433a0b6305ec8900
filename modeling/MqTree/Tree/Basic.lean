import MqTree.Edit
import MqTree.Tree.Subtree

namespace MqTree

structure Tree where
  root : Subtree
  text : Text
  revision : Nat
  edits : List Edit
  lines : LineIndex := .ofText text
  lines_eq : lines = .ofText text := by rfl

namespace Tree

def rootNode (t : Tree) : Node := ⟨t.root, 0⟩

def hasError (t : Tree) : Bool := t.root.hasError

def point? (t : Tree) (offset : Int) : Option Point := t.lines.point? offset

def startPoint? (t : Tree) (n : Node) : Option Point := t.point? n.start

def endPoint? (t : Tree) (n : Node) : Option Point := t.point? n.stop

def textOf? (t : Tree) (n : Node) : Option Text := t.text.slice? n.start n.stop

/-- The token that a leaf was built from. Whether a newline preceded it is not
kept. -/
def token? (t : Tree) (n : Node) : Option Token :=
  match n.sub with
  | .leaf _ _ _ kind lit _ =>
      let p := t.lines.point n.start.toNat
      some ⟨kind, lit, n.start.toNat, n.stop.toNat, p.line, p.column, false⟩
  | _ => none

end Tree

def isPunctuation (sym : String) : Bool :=
  sym.toList.all fun c => !(c.isAlpha || c == '_')

namespace Subtree

def missingLabel (expected : String) : String :=
  if isKeyword expected || isPunctuation expected then "\"" ++ expected ++ "\"" else expected

def fieldLabel (field : String) : Text :=
  if field = "" then #[] else Text.ofString (field ++ ": ")

mutual

/-- A subtree as an S-expression. Anonymous children are quoted, and shown only
if they carry a field or sit in an error. Fails if a quoted child lies outside
the text. -/
def sexp? (text : Text) (start : Int) : Subtree → Option Text
  | .leaf kind .. =>
      some (Text.ofString (if kind = missingKind then "(MISSING \"\")" else "(" ++ kind ++ ")"))
  | .missing expected _ => some (Text.ofString ("(MISSING " ++ missingLabel expected ++ ")"))
  | .branch kind _ _ children _ =>
      if kind = missingKind then some (Text.ofString "(MISSING \"\")")
      else do
        let inner ← sexpOfChildren? text start (kind == errorKind) children
        some (Text.ofString ("(" ++ kind) ++ inner ++ Text.ofString ")")

def sexpOfChildren? (text : Text) (start : Int) (inError : Bool) :
    List (Edge Subtree) → Option Text
  | [] => some #[]
  | ⟨field, offset, node⟩ :: rest => do
      let here ←
        if node.named then do
          let inner ← sexp? text (start + offset) node
          some (Text.ofString " " ++ fieldLabel field ++ inner)
        else if field = "" && !inError then some #[]
        else do
          let quote ← text.slice? (start + offset) (start + offset + node.length)
          some (Text.ofString " " ++ fieldLabel field ++ Text.ofString "\"" ++ quote ++
            Text.ofString "\"")
      let after ← sexpOfChildren? text start inError rest
      some (here ++ after)

end

end Subtree

namespace Tree

def sexpOf? (t : Tree) (n : Node) : Option Text := n.sub.sexp? t.text n.start

def sexp? (t : Tree) : Option Text := t.sexpOf? t.rootNode

end Tree

end MqTree
