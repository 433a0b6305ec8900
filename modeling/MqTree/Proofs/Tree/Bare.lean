import MqTree.Proofs.Tree.Sound

namespace MqTree

namespace Subtree

mutual

/-- A subtree with all lookaheads forgotten. -/
def bare : Subtree → Subtree
  | .leaf kind named length token lit scope =>
      .leaf kind named length token lit ⟨0, scope.statement⟩
  | .missing expected scope => .missing expected ⟨0, scope.statement⟩
  | .branch kind named length children scope =>
      .branch kind named length (bareAll children) ⟨0, scope.statement⟩

def bareAll : List (Edge Subtree) → List (Edge Subtree)
  | [] => []
  | ⟨field, offset, node⟩ :: rest => ⟨field, offset, bare node⟩ :: bareAll rest

end

theorem bareAll_eq_map (children : List (Edge Subtree)) :
    bareAll children = children.map fun e => ⟨e.field, e.offset, e.node.bare⟩ := by
  induction children with
  | nil => rfl
  | cons e rest ih => rw [bareAll, ih, List.map_cons]

@[simp] theorem length_bare (sub : Subtree) : sub.bare.length = sub.length := by
  cases sub <;> rfl

@[simp] theorem kind_bare (sub : Subtree) : sub.bare.kind = sub.kind := by
  cases sub <;> rfl

@[simp] theorem statement_bare (sub : Subtree) :
    sub.bare.scope.statement = sub.scope.statement := by
  cases sub <;> rfl

theorem bare_asStatement (sub : Subtree) (lookahead : Int) :
    (sub.asStatement lookahead).bare = sub.bare.asStatement 0 := by
  cases sub <;> rfl

section

variable {x y : Subtree} (same : y.bare = x.bare)

include same

theorem length_eq_of_bare_eq : y.length = x.length := by
  rw [← length_bare y, same, length_bare]

theorem kind_eq_of_bare_eq : y.kind = x.kind := by
  rw [← kind_bare y, same, kind_bare]

theorem asStatement_bare_eq (a b : Int) : (y.asStatement b).bare = (x.asStatement a).bare := by
  rw [bare_asStatement, bare_asStatement, same]

end

mutual

theorem snapshot_bare (sub : Subtree) (text : Text) (lines : LineIndex) (field : String)
    (start : Int) : sub.bare.snapshot text lines field start = sub.snapshot text lines field start := by
  match sub with
  | .leaf .. | .missing .. => rfl
  | .branch _ _ _ children _ =>
      rw [bare, snapshot, snapshot, snapshotsOfChildren_bare children]

theorem snapshotsOfChildren_bare (children : List (Edge Subtree)) (text : Text) (lines : LineIndex)
    (start : Int) : snapshotsOfChildren text lines start (bareAll children) =
      snapshotsOfChildren text lines start children := by
  match children with
  | [] => rfl
  | ⟨_, offset, node⟩ :: rest =>
      rw [bareAll, snapshotsOfChildren, snapshotsOfChildren, snapshot_bare node,
        snapshotsOfChildren_bare rest]

end

end Subtree

theorem Tree.snapshot_eq_of_bare_eq {t u : Tree} (text : u.text = t.text)
    (same : u.root.bare = t.root.bare) : u.snapshot = t.snapshot := by
  rw [snapshot, snapshot, ← Subtree.snapshot_bare u.root, same, Subtree.snapshot_bare,
    u.lines_eq, t.lines_eq, text]

end MqTree
