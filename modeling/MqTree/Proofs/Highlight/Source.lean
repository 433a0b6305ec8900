import MqTree.Proofs.Grammar.MqLaw
import MqTree.Proofs.Parser.Orderly
import MqTree.Proofs.Parser.WellFormed
import MqTree.Proofs.Text.Lines

namespace MqTree

/-! Highlighting writes every byte of the source once and in order, and changes
nothing but the lines of leaves that have a style. -/

namespace Parser

inductive Arises (p : Parser) : Tree → Prop
  | parsed {text : Text} {tree : Tree} (made : p.parse text = .ok tree) : Arises p tree
  | reparsed {tree next : Tree} {edits : List Edit} {text : Text} (before : Arises p tree)
      (made : p.reparse tree edits text = .ok next) : Arises p next

theorem Arises.formed {p : Parser} {o : Outline} (law : p.table.Lawful o) {tree : Tree}
    (arises : Arises p tree) : tree.WellFormed := by
  induction arises with
  | parsed made => exact (parse_formed law made).1
  | reparsed before made ih => exact (reparse_formed law ih made).1

end Parser

theorem Subtree.isEmpty_of_isLeaf {sub : Subtree} (leaf : sub.isLeaf = true) :
    sub.children.isEmpty = true := by
  cases sub with
  | leaf => rfl
  | missing | branch => contradiction

namespace Node

variable {n : Node} {v : Visit}

theorem mem_leaves (real : v.sub.isMissing = false) :
    v ∈ n.leaves ↔ v ∈ n.visits ∧ v.sub.isLeaf = true := by
  rw [leaves, List.mem_filter, real, Bool.or_false, Bool.and_eq_true,
    and_iff_right_of_imp Subtree.isEmpty_of_isLeaf]

theorem filter_leaves : n.leaves.filter (·.sub.isLeaf) = n.visits.filter (·.sub.isLeaf) := by
  rw [leaves, List.filter_filter]
  refine List.filter_congr fun v _ => ?_
  cases leaf : v.sub.isLeaf with
  | false => rw [Bool.false_and]
  | true => rw [Subtree.isEmpty_of_isLeaf leaf, Bool.true_or, Bool.and_true, Bool.and_true]

end Node

namespace Tree

structure InOrder (t : Tree) (pos : Int) (vs : List Visit) : Prop where
  inside : ∀ v ∈ vs, v.sub.isMissing = false →
    pos ≤ v.start ∧ v.start ≤ v.stop ∧ v.stop ≤ t.text.size
  apart : vs.Pairwise fun u v => u.sub.isMissing = false → v.sub.isMissing = false →
    u.stop ≤ v.start

variable {t : Tree} {pos : Int} {v : Visit} {vs : List Visit} {styles : Styles}

theorem InOrder.skip (order : t.InOrder pos (v :: vs)) : t.InOrder pos vs :=
  ⟨(List.forall_mem_cons.mp order.inside).2, (List.pairwise_cons.mp order.apart).2⟩

theorem InOrder.next (order : t.InOrder pos (v :: vs)) (real : v.sub.isMissing = false) :
    t.InOrder v.stop vs := by
  obtain ⟨behind, apart⟩ := List.pairwise_cons.mp order.apart
  refine ⟨fun w member here => ?_, apart⟩
  exact ⟨behind w member real here, ((List.forall_mem_cons.mp order.inside).2 w member here).2⟩

theorem InOrder.filter (order : t.InOrder pos vs) (keeps : Visit → Bool) :
    t.InOrder pos (vs.filter keeps) :=
  ⟨fun v member => order.inside v (List.mem_of_mem_filter member), order.apart.filter keeps⟩

theorem WellFormed.inOrder (formed : t.WellFormed) : t.InOrder 0 t.rootNode.leaves := by
  have nonneg : ∀ n ∈ t.rootNode.walk, 0 ≤ n.sub.length := fun n member =>
    (formed.sound.of_mem_walk member).length_nonneg
  have nested : t.rootNode.Nested := formed.sound.nested
  have stop : t.rootNode.stop = t.text.size := (Int.zero_add _).trans formed.length
  refine ⟨fun v member _ => ?_, ?_⟩
  · have met : v.toNode ∈ t.rootNode.walk := List.mem_map_of_mem (List.mem_of_mem_filter member)
    have within := nested.of_mem_walk met
    exact ⟨within.1, Int.le_add_of_nonneg_right (nonneg _ met), stop ▸ within.2⟩
  · have behind := List.pairwise_map.mp nested.behind_leaves
    refine (behind.filter _).imp_of_mem ?_
    intro u v member _ before real _
    have leaf := (List.mem_filter.mp member).2
    rw [real, Bool.or_false, Bool.and_eq_true] at leaf
    exact before leaf.2

def leafPieces (t : Tree) (styles : Styles) (v : Visit) : List Piece :=
  match styles (v.category mq.highlightRules) with
  | none => [⟨t.text.extract v.start.toNat v.stop.toNat, none⟩]
  | some style => t.text.linePieces style v.start.toNat v.start.toNat (v.stop.toNat - v.start.toNat)

def pieces (t : Tree) (styles : Styles) (pos : Nat) : List Visit → List Piece
  | [] => [⟨t.text.extract pos t.text.size, none⟩]
  | v :: rest =>
      if v.sub.isMissing then t.pieces styles pos rest
      else ⟨t.text.extract pos v.start.toNat, none⟩ ::
        (t.leafPieces styles v ++ t.pieces styles v.stop.toNat rest)

def StyledLine (t : Tree) (styles : Styles) (v : Visit) (s : Stretch) : Prop :=
  v.sub.isMissing = false ∧ styles (v.category mq.highlightRules) = some s.style ∧
    t.text.IsLine v.start.toNat v.stop.toNat s.start s.stop

section

variable (order : v.start.toNat ≤ v.stop.toNat) (inside : v.stop.toNat ≤ t.text.size)

include order inside

theorem source_leafPieces :
    Piece.source (t.leafPieces styles v) = t.text.extract v.start.toNat v.stop.toNat := by
  unfold leafPieces
  cases styles (v.category mq.highlightRules) with
  | none => exact Array.append_empty
  | some style =>
      simp only
      rw [Text.source_linePieces (Nat.le_refl _) (by omega), Nat.add_sub_of_le order]

theorem output_leafPieces :
    Piece.output (t.leafPieces styles v) = t.styled mq.highlightRules styles v := by
  unfold leafPieces styled
  cases styles (v.category mq.highlightRules) with
  | none => exact Array.append_empty
  | some style =>
      simp only
      rw [Text.output_linePieces (Nat.le_refl _) (by omega), Nat.add_sub_of_le order,
        Array.extract_empty_of_stop_le_start (Nat.le_refl _)]
      exact (Text.mapLines_eq style _).symm

theorem mem_stretches_leafPieces {s : Stretch} (real : v.sub.isMissing = false) :
    s ∈ Piece.stretches v.start.toNat (t.leafPieces styles v) ↔ t.StyledLine styles v s := by
  unfold leafPieces StyledLine
  rw [real]
  cases styles (v.category mq.highlightRules) with
  | none => simp [Piece.stretches]
  | some style =>
      simp only [true_and, Option.some.injEq]
      rw [Text.mem_stretches_linePieces (Nat.le_refl _) (Nat.le_refl _) (Nat.add_sub_of_le order)
        inside (by intro i above below; omega) (Or.inl rfl)]
      constructor
      · rintro ⟨same, line, _⟩
        exact ⟨same.symm, line⟩
      · rintro ⟨same, line⟩
        exact ⟨same.symm, line, line.behind⟩

end

section

variable {pos : Nat}

theorem InOrder.bounds (order : t.InOrder pos (v :: vs)) (real : v.sub.isMissing = false) :
    pos ≤ v.start.toNat ∧ v.start.toNat ≤ v.stop.toNat ∧ v.stop.toNat ≤ t.text.size := by
  have own := (List.forall_mem_cons.mp order.inside).1 real
  omega

theorem InOrder.rest (order : t.InOrder pos (v :: vs)) (real : v.sub.isMissing = false) :
    t.InOrder v.stop.toNat vs := by
  have own := (List.forall_mem_cons.mp order.inside).1 real
  rw [Int.toNat_of_nonneg (by omega)]
  exact order.next real

theorem source_pieces (order : t.InOrder pos vs) (inside : pos ≤ t.text.size) :
    Piece.source (t.pieces styles pos vs) = t.text.extract pos t.text.size := by
  induction vs generalizing pos with
  | nil => rw [pieces, Piece.source, Piece.source, Array.append_empty]
  | cons v rest ih =>
      rw [pieces]
      split
      next => exact ih order.skip inside
      next real =>
        rw [Bool.not_eq_true] at real
        obtain ⟨before, wide, within⟩ := order.bounds real
        rw [Piece.source, Piece.source_append, source_leafPieces wide within,
          ih (order.rest real) within, Text.extract_append wide within,
          Text.extract_append before (by omega)]

theorem output_pieces (order : t.InOrder pos vs) :
    Piece.output (t.pieces styles pos vs) = t.highlightFrom mq.highlightRules styles pos vs := by
  induction vs generalizing pos with
  | nil =>
      rw [pieces, Piece.output, Piece.output, Array.append_empty]
      rfl
  | cons v rest ih =>
      rw [pieces, highlightFrom]
      split
      next => exact ih order.skip
      next real =>
        rw [Bool.not_eq_true] at real
        obtain ⟨before, wide, within⟩ := order.bounds real
        rw [Piece.output, Piece.output_append, output_leafPieces wide within,
          ih (order.rest real), Array.append_assoc]
        rfl

theorem mem_stretches_pieces {s : Stretch} (order : t.InOrder pos vs) :
    s ∈ Piece.stretches pos (t.pieces styles pos vs) ↔ ∃ v ∈ vs, t.StyledLine styles v s := by
  induction vs generalizing pos with
  | nil => simp [pieces, Piece.stretches]
  | cons v rest ih =>
      rw [pieces, List.exists_mem_cons_iff]
      split
      next missing =>
        rw [ih order.skip]
        exact (or_iff_right fun line => absurd line.1 (by simp [missing])).symm
      next real =>
        rw [Bool.not_eq_true] at real
        obtain ⟨before, wide, within⟩ := order.bounds real
        have gap : pos + (t.text.extract pos v.start.toNat).size = v.start.toNat := by
          rw [Array.size_extract]
          omega
        have leaf : v.start.toNat + (t.text.extract v.start.toNat v.stop.toNat).size =
            v.stop.toNat := by
          rw [Array.size_extract]
          omega
        rw [Piece.stretches, Piece.stretches_append, source_leafPieces wide within]
        simp only [Option.map_none, Option.toList_none, List.nil_append, gap, leaf]
        rw [List.mem_append, mem_stretches_leafPieces wide within real, ih (order.rest real)]

end

/-- Highlighting without styles gives the source back. With styles, the source
is in pieces of which each is written once, and the styled ones are the lines of
the leaves whose category has a style. Leaves lie behind each other inside the
source, so that there is a piece between any two. -/
theorem highlight_restyles (window : Nat) (t : Tree) (arises : Parser.Arises { window } t) :
    t.highlight Styles.none = t.text ∧ t.InOrder 0 (t.rootNode.visits.filter (·.sub.isLeaf)) ∧
      ∀ styles, ∃ pieces, Piece.source pieces = t.text ∧
        Piece.output pieces = t.highlight styles ∧
        ∀ s, s ∈ Piece.stretches 0 pieces ↔
          ∃ v ∈ t.rootNode.visits, v.sub.isLeaf = true ∧ t.StyledLine styles v s := by
  have order := (arises.formed Mq.lawful).inOrder
  have text (styles : Styles) :
      Piece.source (t.pieces styles 0 t.rootNode.leaves) = t.text := by
    rw [source_pieces order (Nat.zero_le _), Array.extract_size]
  have written (styles : Styles) :
      Piece.output (t.pieces styles 0 t.rootNode.leaves) = t.highlight styles := output_pieces order
  refine ⟨?_, ?_, fun styles => ⟨_, text styles, written styles, fun s => ?_⟩⟩
  · have plain : Piece.stretches 0 (t.pieces Styles.none 0 t.rootNode.leaves) = [] := by
      rw [List.eq_nil_iff_forall_not_mem]
      intro s member
      obtain ⟨v, _, line⟩ := (mem_stretches_pieces order).mp member
      exact nomatch line.2.1
    rw [← written, Piece.output_eq_source plain, text]
  · rw [← Node.filter_leaves]
    exact order.filter _
  · rw [mem_stretches_pieces order]
    constructor
    · rintro ⟨v, member, line⟩
      obtain ⟨met, leaf⟩ := (Node.mem_leaves line.1).mp member
      exact ⟨v, met, leaf, line⟩
    · rintro ⟨v, met, leaf, line⟩
      exact ⟨v, (Node.mem_leaves line.1).mpr ⟨met, leaf⟩, line⟩

def bracket : Style := fun line => Text.ofString "<" ++ line ++ Text.ofString ">"

def bracketed : Styles := fun category => if category = "comment" then some bracket else none

/-- An edit that changes nothing, and a text that is another one. -/
theorem highlight_restyles_contradicted : ∃ tree next pieces,
    Parser.parse {} (Text.ofString "x # y") = .ok tree ∧
      Parser.reparse {} tree [⟨0, 0, 0, none⟩] (Text.ofString "1 # 2") = .ok next ∧
      next.highlight Styles.none = Text.ofString "1 # 2" ∧
      Piece.source pieces = Text.ofString "1 # 2" ∧
      Piece.output pieces = next.highlight bracketed ∧
      ⟨2, 5, bracket⟩ ∈ Piece.stretches 0 pieces := by
  have computed :
      ((Parser.parse {} (Text.ofString "x # y")).toOption.bind fun tree =>
        (Parser.reparse {} tree [⟨0, 0, 0, none⟩] (Text.ofString "1 # 2")).toOption).map
          (fun next => next.rootNode.visits.any fun v => v.sub.isLeaf && !v.sub.isMissing &&
            v.start == 2 && v.stop == 5 && v.category mq.highlightRules == "comment") =
        some true := by
    decide +kernel
  obtain ⟨tree, parsed, _⟩ := Parser.parse_steady (p := {}) Mq.lawful (Text.ofString "x # y")
  rw [parsed] at computed
  change (Parser.reparse {} tree [⟨0, 0, 0, none⟩] (Text.ofString "1 # 2")).toOption.map _ = _
    at computed
  cases reparsed : Parser.reparse {} tree [⟨0, 0, 0, none⟩] (Text.ofString "1 # 2") with
  | error e =>
      rw [reparsed] at computed
      exact nomatch computed
  | ok next =>
      rw [reparsed] at computed
      have text := (Parser.reparse_formed Mq.lawful (Parser.parse_formed Mq.lawful parsed).1
        reparsed).2.1
      obtain ⟨plain, _, restyled⟩ := highlight_restyles 2 next (.reparsed (.parsed parsed) reparsed)
      obtain ⟨pieces, source, output, stretches⟩ := restyled bracketed
      obtain ⟨v, met, shape⟩ := List.any_eq_true.mp (Option.some.inj computed)
      simp only [Bool.and_eq_true, Bool.not_eq_true', beq_iff_eq] at shape
      obtain ⟨⟨⟨⟨leaf, real⟩, start⟩, stop⟩, category⟩ := shape
      have plainly : ∀ i < 5, 2 ≤ i → (Text.ofString "1 # 2")[i]? ≠ some Text.newline := by decide
      refine ⟨tree, next, pieces, parsed, reparsed, plain.trans text, source.trans text, output,
        (stretches _).mpr ⟨v, met, leaf, real, ?_, ?_⟩⟩
      · rw [category]
        rfl
      · rw [start, stop, text]
        exact ⟨by decide, by decide, by decide, fun i above below => plainly i below above,
          .inl rfl, .inl rfl⟩

end Tree

end MqTree
