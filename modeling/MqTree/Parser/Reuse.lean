import MqTree.Edit
import MqTree.Tree.Subtree

namespace MqTree

namespace Edit

/-- Carries the examined range `[start, stop)` through edits, to where it
starts afterwards. It is lost if an edit overlaps it; one that ends before it
moves it. -/
def survive (start stop : Int64) : List Edit → Option Int64
  | [] => some start
  | e :: rest =>
      if e.start < stop && start < e.oldEnd then none
      else if e.oldEnd ≤ start then survive (start + e.delta) (stop + e.delta) rest
      else survive start stop rest

end Edit

namespace Subtree

mutual

/-- The surviving statements among the children of a subtree, with where they
start after the edits. A statement that is lost may hold others that are not. -/
def survivors (edits : List Edit) (start : Int64) : Subtree → List (Int64 × Subtree)
  | .branch _ _ _ children _ => survivorsOfChildren edits start children
  | _ => []

def survivorsOfChildren (edits : List Edit) (start : Int64) :
    List (Edge Subtree) → List (Int64 × Subtree)
  | [] => []
  | ⟨_, offset, node⟩ :: rest =>
      let here := start + Int64.ofInt offset
      let found :=
        if node.scope.statement then
          let stop := here + Int64.ofInt node.length + Int64.ofInt node.scope.lookahead
          match Edit.survive here stop edits with
          | some new => [(new, node)]
          | none => survivors edits here node
        else []
      found ++ survivorsOfChildren edits start rest

end

end Subtree

structure ReuseIndex where
  entries : List (Int64 × Subtree)

namespace ReuseIndex

def empty : ReuseIndex := ⟨[]⟩

def insert (index : ReuseIndex) (start : Int64) (sub : Subtree) : ReuseIndex :=
  ⟨(index.entries.filter (·.1 != start)) ++ [(start, sub)]⟩

def size (index : ReuseIndex) : Nat := index.entries.length

def take? (index : ReuseIndex) (start : Int64) : Option (Subtree × ReuseIndex) :=
  (index.entries.lookup start).map fun sub => (sub, ⟨index.entries.filter (·.1 != start)⟩)

def ofEdits (root : Subtree) (edits : List Edit) : ReuseIndex :=
  (root.survivors edits 0).foldl (fun index (start, sub) => index.insert start sub) empty

end ReuseIndex

end MqTree
