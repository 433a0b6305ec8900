import MqTree.Tree.Basic

namespace MqTree

inductive Defect where
  | rootKind (kind : String)
  | rootSpan (start stop : Int) (size : Nat)
  | wideMissing (start : Int)
  | overlap (kind : String) (start : Int)
  | early (parent : String) (index : Nat) (kind : String) (start bound : Int)
  | late (parent : String) (index : Nat) (kind : String) (stop : Int)
  deriving DecidableEq, Repr

namespace Defect

def message : Defect → String
  | rootKind kind => s!"root is {kind}, not {sourceFile}"
  | rootSpan start stop size => s!"root spans [{start},{stop}) over {size} bytes"
  | wideMissing start => s!"MISSING at {start} has width"
  | overlap kind start => s!"leaf {kind} at {start} overlaps the previous one"
  | early parent index kind start bound =>
      s!"{parent}[{index}] ({kind}) starts at {start} before {bound}"
  | late parent index kind stop => s!"{parent}[{index}] ({kind}) ends at {stop} after its parent"

def report (ds : List Defect) : String := "\n".intercalate (ds.map message)

end Defect

namespace Node

/-- The children from number `index` on must come in order, the first of them
not before `bound`, and end inside the parent. -/
def childDefects (n : Node) (index : Nat) (bound : Int) : List Node → List Defect
  | [] => []
  | c :: rest =>
      (if c.start < bound then [.early n.kind index c.kind c.start bound] else []) ++
      (if n.stop < c.stop then [.late n.kind index c.kind c.stop] else []) ++
      n.childDefects (index + 1) c.stop rest

def defects (n : Node) (leafEnd : Int) : List Defect :=
  (if n.sub.isMissing && n.start != n.stop then [.wideMissing n.start] else []) ++
  if n.sub.isLeaf then
    if n.start < leafEnd then [.overlap n.kind n.start] else []
  else
    n.childDefects 0 n.start n.children

def defectsOfAll (leafEnd : Int) : List Node → List Defect
  | [] => []
  | n :: rest =>
      n.defects leafEnd ++ defectsOfAll (if n.sub.isLeaf then n.stop else leafEnd) rest

end Node

namespace Tree

def rootDefects (t : Tree) : List Defect :=
  (if t.root.kind = sourceFile then [] else [.rootKind t.root.kind]) ++
  if t.root.length = t.text.size then [] else [.rootSpan 0 t.root.length t.text.size]

/-- What is wrong with a tree: the root must span the text, children must be in
order and inside their parent, leaves must not overlap, and placeholders must be
empty. -/
def verify (t : Tree) : List Defect :=
  t.rootDefects ++ Node.defectsOfAll 0 t.rootNode.walk

end Tree

end MqTree
