import MqTree.Proofs.Tree.Nesting

namespace MqTree

/-! Subtrees whose children follow each other inside them, so that all nodes
below are nested. -/

namespace Subtree

mutual

/-- The children come in order, each inside the node, and only placeholders
stand for what is missing. -/
def Sound : Subtree → Prop
  | .leaf kind _ length _ _ _ => kind ≠ missingKind ∧ 0 ≤ length
  | .missing _ _ => True
  | .branch kind _ length children _ => kind ≠ missingKind ∧ SoundFrom 0 length children

def SoundFrom (low high : Int) : List (Edge Subtree) → Prop
  | [] => low ≤ high
  | ⟨_, offset, node⟩ :: rest =>
      low ≤ offset ∧ node.Sound ∧ SoundFrom (offset + node.length) high rest

end

mutual

theorem Sound.length_nonneg {sub : Subtree} (sound : sub.Sound) : 0 ≤ sub.length := by
  match sub with
  | .leaf .. =>
      rw [Sound] at sound
      exact sound.2
  | .missing .. => exact Int.le_refl 0
  | .branch _ _ _ children _ =>
      rw [Sound] at sound
      exact SoundFrom.low_le children sound.2

theorem SoundFrom.low_le {low high : Int} (children : List (Edge Subtree))
    (sound : SoundFrom low high children) : low ≤ high := by
  match children with
  | [] => exact sound
  | ⟨_, offset, node⟩ :: rest =>
      rw [SoundFrom] at sound
      have := Sound.length_nonneg sound.2.1
      have := SoundFrom.low_le rest sound.2.2
      omega

end

theorem Sound.asStatement {sub : Subtree} (sound : sub.Sound) (lookahead : Int) :
    (sub.asStatement lookahead).Sound := by
  cases sub with
  | leaf => simpa only [Subtree.asStatement, Sound] using sound
  | missing => trivial
  | branch => simpa only [Subtree.asStatement, Sound] using sound

@[simp] theorem length_asStatement (sub : Subtree) (lookahead : Int) :
    (sub.asStatement lookahead).length = sub.length := by
  cases sub <;> rfl

@[simp] theorem kind_asStatement (sub : Subtree) (lookahead : Int) :
    (sub.asStatement lookahead).kind = sub.kind := by
  cases sub <;> rfl

@[simp] theorem scope_asStatement (sub : Subtree) (lookahead : Int) :
    (sub.asStatement lookahead).scope = ⟨lookahead, true⟩ := by
  cases sub <;> rfl

@[simp] theorem children_asStatement (sub : Subtree) (lookahead : Int) :
    (sub.asStatement lookahead).children = sub.children := by
  cases sub <;> rfl

theorem SoundFrom.child {low high : Int} {edges : List (Edge Subtree)} {edge : Edge Subtree}
    (sound : SoundFrom low high edges) (member : edge ∈ edges) : edge.node.Sound := by
  induction edges generalizing low with
  | nil => contradiction
  | cons first rest ih =>
      rw [SoundFrom] at sound
      rcases List.mem_cons.mp member with rfl | later
      · exact sound.2.1
      · exact ih sound.2.2 later

theorem Sound.of_mem_walk {sub : Subtree} (sound : sub.Sound) {start : Int} {n : Node}
    (member : n ∈ (Node.mk sub start).walk) : n.sub.Sound := by
  induction sub using by_children generalizing start with
  | step sub ih =>
      rcases Node.mem_walk.mp member with rfl | ⟨edge, below, inside⟩
      · exact sound
      · refine ih edge below ?_ inside
        cases sub with
        | branch =>
            rw [Sound] at sound
            exact sound.2.child below
        | leaf | missing => contradiction

theorem SoundFrom.children {low high : Int} {edges : List (Edge Subtree)}
    (sound : SoundFrom low high edges) (parent : Node) :
    (∀ c ∈ edges.map parent.child, parent.start + low ≤ c.start ∧ c.stop ≤ parent.start + high) ∧
      (edges.map parent.child).Pairwise fun u v => u.stop ≤ v.start := by
  induction edges generalizing low with
  | nil => exact ⟨fun _ none => absurd none List.not_mem_nil, List.Pairwise.nil⟩
  | cons edge rest ih =>
      obtain ⟨field, offset, node⟩ := edge
      rw [SoundFrom] at sound
      obtain ⟨above, own, later⟩ := sound
      have wide := own.length_nonneg
      have ends := SoundFrom.low_le rest later
      obtain ⟨within, apart⟩ := ih later
      have stop : (parent.child ⟨field, offset, node⟩).stop =
          parent.start + (offset + node.length) := Int.add_assoc _ _ _
      have start : (parent.child ⟨field, offset, node⟩).start = parent.start + offset := rfl
      rw [List.map_cons, List.forall_mem_cons, List.pairwise_cons, stop, start]
      refine ⟨⟨⟨by omega, by omega⟩, fun c member => ?_⟩,
        fun c member => (within c member).1, apart⟩
      have inside := within c member
      omega

theorem Sound.tidy {n : Node} (sound : n.sub.Sound) : n.Tidy := by
  obtain ⟨sub, start⟩ := n
  cases sub with
  | leaf =>
      rw [Sound] at sound
      exact ⟨fun same => absurd same sound.1, fun _ none => absurd none List.not_mem_nil,
        List.Pairwise.nil⟩
  | missing =>
      exact ⟨fun _ => (Int.add_zero start).symm, fun _ none => absurd none List.not_mem_nil,
        List.Pairwise.nil⟩
  | branch kind named length edges scope =>
      rw [Sound] at sound
      obtain ⟨within, apart⟩ := sound.2.children ⟨.branch kind named length edges scope, start⟩
      rw [Int.add_zero] at within
      exact ⟨fun same => absurd same sound.1, within, apart⟩

theorem Sound.nested {n : Node} (sound : n.sub.Sound) : n.Nested :=
  Node.nested_iff_tidy.mpr fun _ member => (sound.of_mem_walk member).tidy

end Subtree

namespace Node

theorem start_le_of_mem_walk {root n : Node} (sound : root.sub.Sound) (member : n ∈ root.walk) :
    root.start ≤ n.start :=
  (sound.nested.of_mem_walk member).1

theorem stop_le_of_mem_walk {root n : Node} (sound : root.sub.Sound) (member : n ∈ root.walk) :
    n.stop ≤ root.stop :=
  (sound.nested.of_mem_walk member).2

theorem start_le_of_mem_walks {low high : Int} {edges : List (Edge Subtree)}
    (sound : Subtree.SoundFrom low high edges) {parent n : Node}
    (member : n ∈ (edges.map parent.child).flatMap walk) : parent.start + low ≤ n.start := by
  obtain ⟨c, child, below⟩ := List.mem_flatMap.mp member
  obtain ⟨edge, inside, rfl⟩ := List.mem_map.mp child
  exact Int.le_trans ((sound.children parent).1 _ child).1
    (start_le_of_mem_walk (sound.child inside) below)

end Node

/-- A sound tree that spans its text has no defects. -/
theorem Tree.verify_eq_nil {t : Tree} (kind : t.root.kind = sourceFile)
    (length : t.root.length = t.text.size) (sound : t.root.Sound) : t.verify = [] := by
  have nonneg : ∀ n ∈ t.rootNode.walk, 0 ≤ n.sub.length := fun n member =>
    (sound.of_mem_walk member).length_nonneg
  have nested : t.rootNode.Nested := sound.nested
  rw [verify, rootDefects, if_pos kind, if_pos length]
  exact nested.defectsOfAll_eq nonneg (Int.le_refl 0)

end MqTree
