import Mathlib.Data.List.Basic
import MqTree.Tree.Snapshot
import MqTree.Tree.Verify

namespace MqTree

namespace Subtree

theorem sizeOf_lt_of_mem_children {sub : Subtree} {edge : Edge Subtree}
    (member : edge ∈ sub.children) : sizeOf edge.node < sizeOf sub := by
  cases sub with
  | branch kind named length children scope =>
      have smaller := List.sizeOf_lt_of_mem (show edge ∈ children from member)
      have own : sizeOf edge.node < sizeOf edge := by
        cases edge
        simp only [Edge.mk.sizeOf_spec]
        omega
      simp only [branch.sizeOf_spec]
      omega
  | leaf | missing => contradiction

theorem by_children {P : Subtree → Prop}
    (step : ∀ sub, (∀ edge ∈ sub.children, P edge.node) → P sub) (sub : Subtree) : P sub :=
  step sub fun edge _ => by_children step edge.node
termination_by sizeOf sub
decreasing_by exact sizeOf_lt_of_mem_children (by assumption)

mutual

private theorem map_visits (sub : Subtree) (depth : Nat) (parent field : String) (start : Int) :
    (sub.visits depth parent field start).map Visit.toNode = (Node.mk sub start).walk := by
  match sub with
  | .leaf .. | .missing .. => rfl
  | .branch kind named length children scope =>
      rw [Node.walk, Node.visits, visits, visits, List.map_cons, List.map_cons]
      rw [map_visitsOfChildren children (depth + 1) kind start,
        map_visitsOfChildren children (0 + 1) kind start]

private theorem map_visitsOfChildren (children : List (Edge Subtree)) (depth : Nat)
    (parent : String) (start : Int) :
    (visitsOfChildren depth parent start children).map Visit.toNode =
      children.flatMap fun e => (Node.mk e.node (start + e.offset)).walk := by
  match children with
  | [] => rfl
  | ⟨field, offset, node⟩ :: rest =>
      rw [visitsOfChildren, List.map_append, map_visits node, map_visitsOfChildren rest]
      rfl

end

end Subtree

namespace Node

theorem walk_leaf (kind : String) (named : Bool) (length : Int) (token : TokenKind) (lit : String)
    (scope : Scope) (start : Int) :
    walk ⟨.leaf kind named length token lit scope, start⟩ =
      [⟨.leaf kind named length token lit scope, start⟩] := rfl

theorem walk_eq (n : Node) : n.walk = n :: n.children.flatMap walk := by
  obtain ⟨sub, start⟩ := n
  cases sub with
  | leaf => rfl
  | missing => rfl
  | branch kind named length children scope =>
      rw [walk, visits, Subtree.visits, List.map_cons, Subtree.map_visitsOfChildren]
      rw [Node.children, List.flatMap_map]
      rfl

theorem mem_walk {n p : Node} :
    p ∈ n.walk ↔ p = n ∨ ∃ edge ∈ n.sub.children, p ∈ (n.child edge).walk := by
  rw [walk_eq, List.mem_cons, children, List.flatMap_map, List.mem_flatMap]

theorem by_nodes {P : Node → Prop} (step : ∀ n : Node, (∀ c ∈ n.children, P c) → P n)
    (n : Node) : P n := by
  obtain ⟨sub, start⟩ := n
  induction sub using Subtree.by_children generalizing start with
  | step sub ih =>
      apply step
      intro c member
      obtain ⟨edge, below, rfl⟩ := List.mem_map.mp member
      exact ih edge below _

def shift (distance : Int) (n : Node) : Node := ⟨n.sub, n.start + distance⟩

theorem children_shift (n : Node) (distance : Int) :
    (n.shift distance).children = n.children.map (shift distance) := by
  rw [children, children, List.map_map]
  refine List.map_congr_left fun e _ => ?_
  exact congrArg (Node.mk e.node) (Int.add_right_comm n.start distance e.offset)

theorem walk_shift (n : Node) (distance : Int) :
    (n.shift distance).walk = n.walk.map (shift distance) := by
  induction n using by_nodes with
  | step n ih =>
      rw [walk_eq, walk_eq n, children_shift, List.map_cons, List.flatMap_map, List.map_flatMap]
      exact congrArg _ (List.flatMap_congr ih)

theorem mem_walk_self (n : Node) : n ∈ n.walk := by
  rw [walk_eq]
  exact List.mem_cons_self

theorem mem_walk_trans {root n v : Node} (member : n ∈ root.walk) (below : v ∈ n.walk) :
    v ∈ root.walk := by
  induction root using by_nodes with
  | step root ih =>
      rw [walk_eq] at member ⊢
      rcases List.mem_cons.mp member with rfl | inner
      · rwa [walk_eq] at below
      · obtain ⟨c, child, under⟩ := List.mem_flatMap.mp inner
        exact List.mem_cons_of_mem root (List.mem_flatMap.mpr ⟨c, child, ih c child under⟩)

theorem child_mem_walk {n c : Node} (member : c ∈ n.children) : c ∈ n.walk := by
  rw [walk_eq]
  exact List.mem_cons_of_mem n (List.mem_flatMap.mpr ⟨c, member, c.mem_walk_self⟩)

def isStatement (n : Node) : Bool := n.sub.scope.statement

/-- One past the last byte that a node depends on. -/
def examined (n : Node) : Int := n.stop + n.sub.scope.lookahead

end Node

end MqTree
