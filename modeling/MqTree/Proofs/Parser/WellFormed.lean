import MqTree.Proofs.Edit.Survive
import MqTree.Proofs.Grammar.MqLaw
import MqTree.Proofs.Parser.Document
import MqTree.Proofs.Parser.Marks

namespace MqTree

/-! Trees stay well formed from one revision to the next, whatever the edits
say and whatever the new text is. -/

structure Node.Portable (n : Node) : Prop where
  sound : n.sub.Sound
  positive : 0 < n.sub.length
  looked : 0 < n.sub.scope.lookahead
  inner : ∀ m ∈ n.walk, m.isStatement = true → m.examined ≤ n.examined

namespace Node

theorem examined_shift (n : Node) (distance : Int) :
    (n.shift distance).examined = n.examined + distance := by
  simp only [shift, examined, stop]
  omega

theorem Portable.shift {n : Node} (portable : n.Portable) (distance : Int) :
    (n.shift distance).Portable where
  sound := portable.sound
  positive := portable.positive
  looked := portable.looked
  inner := by
    intro m member marked
    rw [walk_shift] at member
    obtain ⟨own, below, rfl⟩ := List.mem_map.mp member
    rw [examined_shift, examined_shift]
    exact Int.add_le_add_right (portable.inner own below marked) distance

theorem shift_eq {n : Node} {start : Int} : n.shift (start - n.start) = ⟨n.sub, start⟩ := by
  simp only [shift, Node.mk.injEq, true_and]
  omega

end Node

theorem Parser.Complete.portable {c : Context} {frames : List Frame} {s r : State} {it : Item}
    (complete : Complete c s it r) (stands : Stands c frames s) (built : Built c s [it] r)
    (below : ∀ n, Marked [it] n → n.Portable ∧ n.examined ≤ r.lexer.reach) :
    Node.Portable ⟨it.node.asStatement (r.lookahead it.stop), it.start⟩ := by
  obtain ⟨ends, examined, looked⟩ := built.examined_eq stands
  obtain ⟨_, sound, _⟩ := built.spread stands
  have led := complete.led
  have moved := complete.moved
  refine ⟨sound.asStatement _, ?_, ?_, ?_⟩
  · simp only [Subtree.length_asStatement]
    simp only [Item.stop] at ends
    omega
  · rw [Subtree.scope_asStatement]
    exact looked
  · intro m member marked
    rw [examined]
    rcases marked_asStatement ⟨marked, _, List.mem_singleton_self _, member⟩ with rfl | inside
    · exact Int.le_of_eq examined
    · exact (below m inside).2

structure Tree.Steady (t : Tree) : Prop where
  kind : t.root.kind = sourceFile
  length : t.root.length = t.text.size
  sound : t.root.Sound
  statements : ∀ n ∈ t.rootNode.walk, n.isStatement = true →
    n.Portable ∧ n.examined ≤ t.text.size + 1

namespace Tree.Steady

variable {t : Tree} {edits : List Edit} {size : Nat}

theorem carried (steady : t.Steady) (small : t.text.size < 2 ^ 63) (limit : size < 2 ^ 63)
    (valid : Edit.validate (Int64.ofNat t.text.size) edits (Int64.ofNat size) = .ok ())
    (roomy : Edit.Roomy (Int64.ofNat t.text.size) edits) {start : Nat} (inside : start ≤ size)
    {sub : Subtree}
    (offered : (Int64.ofNat start, sub) ∈ (ReuseIndex.ofEdits t.root edits).entries) :
    ∃ n ∈ t.rootNode.walk, n.isStatement = true ∧ sub = n.sub ∧ 0 ≤ n.start ∧
      Edit.Carries t.text.size n.start n.examined edits size start := by
  obtain ⟨n, member, marked, same, survived⟩ := ReuseIndex.mem_ofEdits offered
  obtain ⟨portable, within⟩ := steady.statements n member marked
  have above : 0 ≤ n.start := Node.start_le_of_mem_walk steady.sound member
  have positive := portable.positive
  have looked := portable.looked
  have order : n.start ≤ n.examined := by
    simp only [Node.examined, Node.stop]
    omega
  have old := Int64.toInt_ofNat_of_lt small
  have new := Int64.toInt_ofNat_of_lt limit
  have room := roomy.lt
  rw [old] at room
  have first := Int64.toInt_ofInt_of_le (n := n.start) (by omega) (by omega)
  have last := Int64.toInt_ofInt_of_le (n := n.examined) (by omega) (by omega)
  have here := Int64.toInt_ofNat_of_lt (Nat.lt_of_le_of_lt inside limit)
  have carries := Edit.survive_carries (Edit.validate_ok valid) (by rw [new]; omega) roomy
    (by rw [first]; exact above) (by rw [first, last]; exact order) (by rw [last, old]; exact within)
    survived
  rw [old, new, first, last, here] at carries
  exact ⟨n, member, marked, same, above, carries⟩

section

variable (steady : t.Steady) (small : t.text.size < 2 ^ 63) (limit : size < 2 ^ 63)
  (valid : Edit.validate (Int64.ofNat t.text.size) edits (Int64.ofNat size) = .ok ())
  (roomy : Edit.Roomy (Int64.ofNat t.text.size) edits)

include steady small limit valid roomy

theorem fit : (ReuseIndex.ofEdits t.root edits).Fit size := by
  intro start inside sub offered
  obtain ⟨n, member, marked, rfl, above, carries⟩ :=
    steady.carried small limit valid roomy inside offered
  obtain ⟨portable, within⟩ := steady.statements n member marked
  have positive := portable.positive
  have looked := portable.looked
  have bounds := carries.bounds above (by simp only [Node.examined, Node.stop]; omega) within
  simp only [Node.examined, Node.stop] at bounds
  exact
    { sound := portable.sound
      positive := positive
      inside := by omega
      limit := by omega }

theorem inner {start : Nat} (inside : start ≤ size) {sub : Subtree}
    (offered : (Int64.ofNat start, sub) ∈ (ReuseIndex.ofEdits t.root edits).entries) {m : Node}
    (member : m ∈ (Node.mk sub start).walk) (marked : m.isStatement = true) :
    ∃ outer own : Node, own ∈ t.rootNode.walk ∧ own.isStatement = true ∧ 0 ≤ outer.start ∧
      outer.start ≤ own.start ∧ own.examined ≤ outer.examined ∧ sub = outer.sub ∧
      m = own.shift (start - outer.start) ∧
      Edit.Carries t.text.size outer.start outer.examined edits size start := by
  obtain ⟨outer, known, isStatement, rfl, above, carries⟩ :=
    steady.carried small limit valid roomy inside offered
  rw [← Node.shift_eq (n := outer), Node.walk_shift] at member
  obtain ⟨own, below, rfl⟩ := List.mem_map.mp member
  have portable := (steady.statements outer known isStatement).1
  exact ⟨outer, own, Node.mem_walk_trans known below, marked, above,
    Node.start_le_of_mem_walk portable.sound below, portable.inner own below marked, rfl, rfl,
    carries⟩

theorem keeps {c : Parser.Context} (text : c.src.size = size) :
    Parser.Keeps c (ReuseIndex.ofEdits t.root edits) Node.Portable where
  marked := fun stands _ complete built below => complete.portable stands built below
  taken := by
    intro start sub inside offered m member marked
    rw [text] at inside
    obtain ⟨outer, own, known, isStatement, _, _, within, rfl, rfl, _⟩ :=
      steady.inner small limit valid roomy inside offered member marked
    refine ⟨(steady.statements own known isStatement).1.shift _, ?_⟩
    rw [← Node.shift_eq (n := outer), Node.examined_shift, Node.examined_shift]
    exact Int.add_le_add_right within _

end

end Tree.Steady

namespace Parser

theorem Keeps.fresh (c : Context) : Keeps c .empty Node.Portable where
  marked := fun stands _ complete built below => complete.portable stands built below
  taken := fun _ _ _ offered => absurd offered List.not_mem_nil

theorem build_steady {p : Parser} {o : Outline} (law : p.table.Lawful o) {text : Text}
    {index : ReuseIndex} (fit : index.Fit text.size)
    (keeps : Keeps (p.context text) index Node.Portable) :
    ∃ root events, build (p.context text) index = .ok (root, events) ∧
      ∀ t : Tree, t.root = root → t.text = text → t.Steady := by
  obtain ⟨items, last, parsed⟩ := @Parsed.of_lawful (p.context text) o index law rfl fit
  refine ⟨_, _, parsed.build_eq law, ?_⟩
  intro t root src
  refine ⟨?_, ?_, ?_, ?_⟩
  · rw [root]
    rfl
  · rw [root, src]
    rfl
  · rw [root]
    exact parsed.root_sound
  · intro n member marked
    rw [Tree.rootNode, root] at member
    rw [src]
    exact (parsed.keeps keeps member marked).2

theorem parse_steady {p : Parser} {o : Outline} (law : p.table.Lawful o) (text : Text) :
    ∃ tree, p.parse text = .ok tree ∧ tree.text = text ∧ tree.Steady := by
  obtain ⟨root, events, built, steady⟩ :=
    build_steady law (fun _ _ _ offered => absurd offered List.not_mem_nil) (Keeps.fresh (p.context text))
  exact ⟨_, parse_eq_of_build built, rfl, steady _ rfl rfl⟩

/-- Sizes that edits can be counted in: those of both texts, and all between. -/
structure Counts (tree : Tree) (edits : List Edit) (text : Text) : Prop where
  old : tree.text.size < 2 ^ 63
  new : text.size < 2 ^ 63
  roomy : Edit.Roomy (Int64.ofNat tree.text.size) edits

theorem reparse_steady {p : Parser} {o : Outline} (law : p.table.Lawful o) {tree : Tree}
    (steady : tree.Steady) {edits : List Edit} {text : Text} (counts : Counts tree edits text) :
    (∃ e, Edit.validate (Int64.ofNat tree.text.size) edits (Int64.ofNat text.size) = .error e ∧
      p.reparse tree edits text = .error (.invalid e)) ∨
    ∃ next, p.reparse tree edits text = .ok next ∧ next.text = text ∧ next.Steady := by
  obtain ⟨old, new, roomy⟩ := counts
  cases checked : Edit.validate (Int64.ofNat tree.text.size) edits (Int64.ofNat text.size) with
  | error e => exact Or.inl ⟨e, rfl, reparse_eq_of_invalid checked⟩
  | ok _ =>
      obtain ⟨root, events, built, next⟩ := build_steady law
        (steady.fit old new checked roomy)
        (steady.keeps old new checked roomy (c := p.context text) rfl)
      exact Or.inr ⟨_, reparse_eq_of_build checked built, rfl, next _ rfl rfl⟩

inductive Comes (p : Parser) : Tree → Prop
  | parsed {text : Text} {tree : Tree} (made : p.parse text = .ok tree) : Comes p tree
  | reparsed {tree next : Tree} {edits : List Edit} {text : Text} (before : Comes p tree)
      (counts : Counts tree edits text) (made : p.reparse tree edits text = .ok next) :
      Comes p next

theorem Comes.steady {p : Parser} {o : Outline} (law : p.table.Lawful o) {tree : Tree}
    (comes : Comes p tree) : tree.Steady := by
  induction comes with
  | @parsed text tree made =>
      obtain ⟨other, parsed, _, steady⟩ := parse_steady law text
      rw [parsed] at made
      rwa [← Except.ok.inj made]
  | @reparsed tree next edits text before counts made ih =>
      rcases reparse_steady law ih counts with ⟨e, _, invalid⟩ | ⟨other, reparsed, _, steady⟩
      · rw [invalid] at made
        contradiction
      · rw [reparsed] at made
        rwa [← Except.ok.inj made]

theorem verify_of_steady {tree : Tree} (steady : tree.Steady) : tree.verify = [] :=
  Tree.verify_eq_nil steady.kind steady.length steady.sound

/-- Every text has a well-formed tree, and every revision of a tree that a
parser came to either has invalid edits or is well formed, as long as no size on
the way leaves no room for one more byte. -/
theorem revisions_wellFormed (window : Nat) :
    (∀ text, ∃ tree, Parser.parse { window } text = .ok tree ∧ tree.verify = []) ∧
    ∀ tree, Comes { window } tree → ∀ edits text, Counts tree edits text →
      (∃ e, Edit.validate (Int64.ofNat tree.text.size) edits (Int64.ofNat text.size) = .error e ∧
        Parser.reparse { window } tree edits text = .error (.invalid e)) ∨
      ∃ next, Parser.reparse { window } tree edits text = .ok next ∧ next.verify = [] := by
  constructor
  · intro text
    obtain ⟨tree, parsed, _, steady⟩ := parse_steady (p := { window }) Mq.lawful text
    exact ⟨tree, parsed, verify_of_steady steady⟩
  · intro tree comes edits text counts
    rcases reparse_steady (p := { window }) Mq.lawful (comes.steady Mq.lawful) counts with
      invalid | ⟨next, reparsed, _, steady⟩
    · exact Or.inl invalid
    · exact Or.inr ⟨next, reparsed, verify_of_steady steady⟩

theorem revision_contradicted : ∃ tree next,
    Parser.parse {} (Text.ofString "x") = .ok tree ∧
      Parser.reparse {} tree [⟨0, 0, 0, none⟩] (Text.ofString "1") = .ok next ∧
      next.verify = [] := by
  obtain ⟨tree, parsed, src, _⟩ := parse_steady (p := {}) Mq.lawful (Text.ofString "x")
  have size : tree.text.size = 1 := by
    rw [src]
    decide
  have counts : Counts tree [⟨0, 0, 0, none⟩] (Text.ofString "1") := by
    refine ⟨?_, by decide, ?_⟩
    · rw [size]
      decide
    · rw [size]
      decide
  rcases (revisions_wellFormed 2).2 tree (.parsed parsed) _ _ counts with
    ⟨e, invalid, _⟩ | ⟨next, reparsed, verified⟩
  · have valid : Edit.validate (Int64.ofNat 1) [⟨0, 0, 0, none⟩]
        (Int64.ofNat (Text.ofString "1").size) = .ok () := by
      decide
    rw [size, valid] at invalid
    exact nomatch invalid
  · exact ⟨tree, next, parsed, reparsed, verified⟩

def brimming : List Edit :=
  [⟨0, 0, 9223372036854775798, none⟩,
    ⟨9223372036854775799, 9223372036854775807, 9223372036854775799, none⟩,
    ⟨0, 9223372036854775798, 0, none⟩]

/-- At the largest size, the end of what a statement depends on is lost. -/
theorem brimming_out_of_range : ∃ tree, Parser.parse {} (Text.ofString "let x = 1") = .ok tree ∧
    Parser.reparse {} tree brimming (Text.ofString "x") =
      .error (.violation (.seekOutOfRange 9 1)) := by
  have computed :
      (match Parser.parse {} (Text.ofString "let x = 1") with
        | .ok tree =>
            match Parser.reparse {} tree brimming (Text.ofString "x") with
            | .error (.violation v) => v == .seekOutOfRange 9 1
            | _ => false
        | .error _ => false) = true := by
    decide +kernel
  cases parsed : Parser.parse {} (Text.ofString "let x = 1") with
  | error v =>
      rw [parsed] at computed
      exact nomatch computed
  | ok tree =>
      refine ⟨tree, rfl, ?_⟩
      simp only [parsed] at computed
      cases reparsed : Parser.reparse {} tree brimming (Text.ofString "x") with
      | ok next =>
          rw [reparsed] at computed
          exact nomatch computed
      | error e =>
          rw [reparsed] at computed
          cases e with
          | invalid e => exact nomatch computed
          | violation v => rw [beq_iff_eq.mp computed]

end Parser

end MqTree
