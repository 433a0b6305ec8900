import MqTree.Proofs.Parser.Production
import MqTree.Proofs.Parser.Required

namespace MqTree

/-! Operators that bind more tightly are further inside, and of those that bind
equally the first one is. -/

def Node.power? (ops : List (String × UInt8)) (n : Node) : Option UInt8 :=
  (n.childInField? "operator").bind fun operator => ops.lookup operator.kind

/-- Whether an operation on the left of a node's operator binds at least as
tightly as it, and one on the right more tightly. -/
def Node.Binds (kind : String) (ops : List (String × UInt8)) (n : Node) : Prop :=
  ∃ left right power, n.childrenInField "left" = [left] ∧ n.childrenInField "right" = [right] ∧
    n.power? ops = some power ∧
    (left.kind = kind → ∃ inner, left.power? ops = some inner ∧ power ≤ inner) ∧
    (right.kind = kind → ∃ inner, right.power? ops = some inner ∧ power < inner)

def Expr.operates (t : Table) (kind : String) (ops : List (String × UInt8)) : Expr → Bool
  | .leaf own _ | .unary own _ _ => own != kind
  | .suffixed _ _ all => all.all (·.kind != kind)
  | .binary own operand others =>
      own != kind ||
        (operand.single && others == ops && (t.slots "" operand).all (·.ref.type != kind))
  | _ => true

structure Table.Operates (t : Table) (kind : String) (ops : List (String × UInt8)) : Prop where
  made : kind ∉ tokenSymbols ++ [errorKind, missingKind, sourceFile]
  rules : ∀ {name r}, t.rule? name = some r → r.hidden = false → r.nodeKind ≠ kind
  parts : ∀ {e}, t.Part e → e.operates t kind ops = true
  powers : ∀ op ∈ ops, op.2 < 255

namespace Mq

theorem rules_operate : ∀ r ∈ mq.rules, r.hidden = false → r.nodeKind ≠ "binary_expr" := by
  decide +kernel

theorem parts_operate : ∀ r ∈ mq.rules, ∀ e ∈ r.body.parts,
    e.operates mq "binary_expr" bindingPowers = true := by
  decide +kernel

theorem operates : mq.Operates "binary_expr" bindingPowers where
  made := by decide +kernel
  rules found := rules_operate _ (Table.rule?_eq_some found).1
  parts := by
    rintro e ⟨r, rule, inside⟩
    exact parts_operate r rule e inside
  powers := by decide

end Mq

namespace Parser

variable {c : Context} {level : List String} {rank : String → Nat} {s r : State}
  {items left right : List Item} {kind : String} {operand : Expr} {ops own : List (String × UInt8)}
  {least power : UInt8}

theorem le_of_lt_succ {next : UInt8} (below : next < power + 1) : next ≤ power := by grind

theorem lt_of_succ_le {next : UInt8} (small : power < 255) (above : power + 1 ≤ next) :
    power < next := by grind

section

variable (tidy : c.table.Tidy level rank) (focused : c.table.Focused)
  (operates : c.table.Operates kind ops) (part : c.table.Part (.binary kind operand own))

include operates part

theorem operand_facts :
    operand.single = true ∧ own = ops ∧ ∀ slot ∈ c.table.slots "" operand, slot.ref.type ≠ kind := by
  have facts := operates.parts part
  simpa [Expr.operates, and_assoc] using facts

theorem power_small (found : power? own s = some power) : power < 255 := by
  obtain ⟨_, rfl, _⟩ := operand_facts operates part
  exact operates.powers (s.token.lit, power) (mem_of_power? found)

include tidy

/-- An operand is no operation itself; one in brackets is further inside. -/
theorem operand_kind_ne (faces : Faces c s) (one : Yields c (.task (.expr operand "")) s items r) :
    ∀ it ∈ items, it.node.kind ≠ kind := by
  obtain ⟨_, _, slots⟩ := operand_facts operates part
  have tidied := tidy.parts part
  rw [Expr.tidy, Bool.and_eq_true, Bool.and_eq_true] at tidied
  have belong := one.puts tidy faces (part.only rfl)
  intro it member same
  rcases (belong it member).2 with extra | ⟨_, slot | ⟨uneven, _⟩⟩
  · have special : ∀ other ∈ [commentSymbol, errorKind, missingKind],
        other ∈ tokenSymbols ++ [errorKind, missingKind, sourceFile] := by
      decide +kernel
    refine operates.made ?_
    rw [← same]
    exact special _ (List.contains_iff_mem.mp extra)
  · exact slots _ slot same
  · rw [tidied.1.2] at uneven
    contradiction

include focused

theorem Operations.sole (operations : Operations c kind operand own least left s) :
    Sole "" left := by
  cases operations with
  | operand heard one =>
      exact one.sole tidy focused heard.toFaces (part.only rfl) (operand_facts operates part).1
  | operation before found tight one =>
      have tidied := tidy.parts part
      rw [Expr.tidy, Bool.and_eq_true, Bool.and_eq_true] at tidied
      exact .finish tidied.1.1 _ "" _

end

variable {n child : Node} {start : Int}

theorem childrenInField_eq (children : n.sub.children = items.map (Item.edge start))
    (field : String) :
    n.childrenInField field =
      (items.filter (·.field == field)).map fun it => n.child (it.edge start) := by
  rw [Node.childrenInField, children, List.filter_map, List.map_map]
  rfl

theorem filter_eq_nil {field : String} (lacks : ∀ it ∈ items, it.field ≠ field) :
    items.filter (·.field == field) = [] :=
  List.filter_eq_nil_iff.mpr fun it member => by simpa using lacks it member

theorem Sole.filter_eq {field : String} (sole : Sole field items) (named : field ≠ "") :
    ∃ it ∈ items, items.filter (·.field == field) = [it] := by
  obtain ⟨front, it, rfl, others, own, _⟩ := sole
  refine ⟨it, List.mem_append_right _ (List.mem_singleton_self it), ?_⟩
  have strays := filter_eq_nil fun other member => (others other member).field_ne named
  rw [List.filter_append, strays]
  simp [own]

theorem filter_operator (faces : Faces c s) {field : String} (named : field ≠ "") :
    (s.consume c "operator" s.token.symbol false).1.filter (·.field == field) =
      if "operator" = field then
        [⟨"operator", s.token.start, .ofToken s.token.symbol false s.token⟩]
      else [] := by
  have comments := filter_eq_nil fun it member => (faces.comments it member).stray.field_ne named
  rw [State.consume_fst, List.filter_append, comments]
  simp only [List.nil_append, List.filter_cons, List.filter_nil, beq_iff_eq]

theorem filter_operation (faces : Faces c s) (first : Sole "" left) (second : Sole "right" right) :
    ∃ x ∈ withField "left" left, ∃ y ∈ right,
      (operation c s left right).filter (·.field == "left") = [x] ∧
      (operation c s left right).filter (·.field == "operator") =
        [⟨"operator", s.token.start, .ofToken s.token.symbol false s.token⟩] ∧
      (operation c s left right).filter (·.field == "right") = [y] := by
  have first := first.withField "left"
  obtain ⟨x, atLeft, isLeft⟩ := first.filter_eq (by decide)
  obtain ⟨y, atRight, isRight⟩ := second.filter_eq (by decide)
  refine ⟨x, atLeft, y, atRight, ?_, ?_, ?_⟩ <;>
    rw [operation, List.filter_append, List.filter_append, filter_operator faces (by decide)]
  · rw [isLeft, filter_eq_nil (second.lacks (by decide) (by decide))]
    rfl
  · rw [filter_eq_nil (first.lacks (by decide) (by decide)),
      filter_eq_nil (second.lacks (by decide) (by decide))]
    rfl
  · rw [isRight, filter_eq_nil (first.lacks (by decide) (by decide))]
    rfl

theorem power?_operation (faces : Faces c s) (first : Sole "" left) (second : Sole "right" right)
    (found : power? ops s = some power)
    (children : n.sub.children = (operation c s left right).map (Item.edge start)) :
    n.power? ops = some power := by
  obtain ⟨mark, listed⟩ := mark_of_power? found
  obtain ⟨_, _, _, _, _, one, _⟩ := filter_operation faces first second
  rw [Node.power?, Node.childInField?, childrenInField_eq children, one]
  change ops.lookup s.token.symbol = some power
  rwa [(isEnd_of_mark mark).2]

section

variable (tidy : c.table.Tidy level rank) (focused : c.table.Focused)
  (operates : c.table.Operates kind ops) (part : c.table.Part (.binary kind operand ops))

include tidy focused operates part

/-- An operation that stands for an operand binds as tightly as was asked for,
and at least as tightly as the operator behind it. -/
theorem Operations.power_ge (operations : Operations c kind operand ops least left s)
    {field : String} {it : Item} (member : it ∈ withField field left) (made : child.sub = it.node)
    (same : child.kind = kind) :
    ∃ power, child.power? ops = some power ∧ least ≤ power ∧
      ∀ next, power? ops s = some next → next ≤ power := by
  obtain ⟨own, listed, moved⟩ := mem_of_withField member
  have node : child.sub = own.node := made.trans (congrArg Node.sub moved)
  cases operations with
  | operand heard one =>
      refine absurd ?_ (operand_kind_ne tidy operates part heard.toFaces one own listed)
      rw [← node]
      exact same
  | @operation left q power right _ before found tight one =>
      have heard := before.heard
      have facing := heard.toFaces
      have first := before.sole tidy focused operates part
      have second := one.sole tidy focused facing.moved part (operand_facts operates part).1
      obtain ⟨_, _, made⟩ := children_finish s kind "" (Parser.operation c q left right)
      rw [List.mem_singleton.mp listed, made] at node
      have children := congrArg Subtree.children node
      -- The right side ends at the operator behind, which is too loose for it.
      obtain ⟨_, _, _, loose⟩ := one.operations heard.moved
      exact ⟨power, power?_operation facing first second found children, tight,
        fun next behind => le_of_lt_succ (loose next behind)⟩

theorem operation_binds (before : Operations c kind operand ops least left s)
    (found : power? ops s = some power)
    (one : Yields c (.task (.operand kind operand ops (power + 1) "right")) (s.moved c) right r)
    (children : n.sub.children = (operation c s left right).map (Item.edge start)) :
    n.Binds kind ops := by
  have heard := before.heard
  have facing := heard.toFaces
  have first := before.sole tidy focused operates part
  have second := one.sole tidy focused facing.moved part (operand_facts operates part).1
  obtain ⟨x, atLeft, y, atRight, isLeft, _, isRight⟩ := filter_operation facing first second
  refine ⟨n.child (x.edge start), n.child (y.edge start), power, ?_, ?_,
    power?_operation facing first second found children, ?_, ?_⟩
  · rw [childrenInField_eq children, isLeft]
    rfl
  · rw [childrenInField_eq children, isRight]
    rfl
  · intro same
    obtain ⟨inner, has, _, above⟩ := before.power_ge tidy focused operates part atLeft rfl same
    exact ⟨inner, has, above power found⟩
  · intro same
    obtain ⟨last, rfl, behind, _⟩ := one.operations heard.moved
    obtain ⟨inner, has, above, _⟩ := behind.power_ge tidy focused operates part atRight rfl same
    exact ⟨inner, has, lt_of_succ_le (power_small operates part found) above⟩

omit part in
theorem Made.binds (made : Made c n) (same : n.kind = kind) : n.Binds kind ops := by
  cases made with
  | leaf own =>
      rcases own with symbol | ⟨sym, part⟩
      · exact absurd (List.mem_append_left _ (same ▸ symbol)) operates.made
      · exact absurd same (bne_iff_ne.mp (operates.parts part))
  | missing =>
      refine absurd (List.mem_append_right _ ?_) operates.made
      rw [← same]
      exact List.mem_cons_of_mem _ List.mem_cons_self
  | @branch own items named length scope start production =>
      change own = kind at same
      subst same
      cases production with
      | rule part found visible heard met inner => exact absurd rfl (operates.rules found visible)
      | suffixed part member gathers =>
          have differ := operates.parts part
          rw [Expr.operates, List.all_eq_true] at differ
          exact absurd rfl (bne_iff_ne.mp (differ _ member))
      | operation part before found tight one =>
          obtain ⟨_, rfl, _⟩ := operand_facts operates part
          exact operation_binds tidy focused operates part before found one rfl
      | signed part heard mark member inner =>
          exact absurd rfl (bne_iff_ne.mp (operates.parts part))
      | skipped | unexpected =>
          exact absurd (List.mem_append_right _ List.mem_cons_self) operates.made

end

/-- On the left of an operator stand only operations that bind at least as
tightly, and on its right only such that bind more tightly. -/
theorem operators_bind (window : Nat) (text : Text) :
    ∃ tree, Parser.parse { window } text = .ok tree ∧
      ∀ n ∈ tree.rootNode.walk, n.kind = "binary_expr" →
        n.Binds "binary_expr" Mq.bindingPowers := by
  obtain ⟨items, last, parsed, _⟩ := parse_described window text
  refine ⟨_, parse_eq_of_build (parsed.build_eq Mq.lawful), ?_⟩
  intro n member same
  rcases parsed.makes rfl mq_part_start member with rfl | made
  · exact absurd same (by decide : sourceFile ≠ "binary_expr")
  · exact made.binds Mq.tidy Mq.focused Mq.operates same

end Parser

end MqTree
