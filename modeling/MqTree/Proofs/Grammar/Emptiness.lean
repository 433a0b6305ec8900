import MqTree.Proofs.Grammar.First
import MqTree.Proofs.Grammar.Kept

namespace MqTree

/-! The expressions that are known to match the empty sequence are those that
derive it. -/

namespace Table

variable {t : Table} {α : Type} {R : Reading α} {known : List String}

theorem Derives.copies_empty {body : Expr} (empty : ∀ prev, t.Derives R prev body [])
    (n : Nat) {min : Int} (few : min ≤ n) (prev : Option α) :
    t.Derives R prev (.rep body min) [] := by
  induction n generalizing min prev with
  | zero => exact .enough few
  | succ n ih => exact .copy (u := []) (empty prev) (ih (by omega) prev)

/-- What is found to match the empty sequence by rules that derive it derives it
as well. -/
theorem derives_of_nullable
    (marked : ∀ name ∈ known, ∀ prev, t.Derives R prev (.ref name) []) {e : Expr}
    (empty : e.nullable known = true) (prev : Option α) : t.Derives R prev e [] := by
  induction e using Expr.by_inners generalizing prev with
  | step e ih =>
      cases e with
      | tok | leaf => contradiction
      | ref name => exact marked name (List.contains_iff_mem.mp empty) prev
      | seq es =>
          rw [Expr.nullable, Expr.allNullable_eq, List.all_eq_true] at empty
          -- What is left to do is a list of items that all derive the empty sequence.
          replace ih := fun e (member : e ∈ es) => ih e member (empty e member)
          clear empty
          induction es generalizing prev with
          | nil => exact .nil
          | cons e es rest =>
              obtain ⟨own, others⟩ := List.forall_mem_cons.mp ih
              exact .cons (u := []) (own prev) (rest prev others)
      | choice es =>
          rw [Expr.nullable, Expr.anyNullable_eq, List.any_eq_true] at empty
          obtain ⟨e, member, own⟩ := empty
          exact .choice member (ih e member own prev)
      | ordered es =>
          rw [Expr.nullable, Expr.anyNullable_eq, List.any_eq_true] at empty
          obtain ⟨e, member, own⟩ := empty
          exact .ordered member (ih e member own prev)
      | opt => exact .absent
      | sepBy => exact .noElement
      | stmts => exact .noStatement
      | rep body min =>
          rw [Expr.nullable, Bool.or_eq_true, beq_iff_eq] at empty
          rcases empty with rfl | own
          · exact .enough (Int.le_refl 0)
          · exact .copies_empty (ih body (List.mem_singleton_self body) own) min.toNat
              (Int.self_le_toNat min) prev
      | field name body => exact .field (ih body (List.mem_singleton_self body) empty prev)
      | immediate body =>
          exact .immediate (ih body (List.mem_singleton_self body) empty prev)
            fun first head => absurd head (Option.not_mem_none first)
      | sameLine body =>
          exact .sameLine (ih body (List.mem_singleton_self body) empty prev)
            fun first head => absurd head (Option.not_mem_none first)
      | suffixed head => exact .head (ih head List.mem_cons_self empty prev)
      | binary kind operand =>
          exact .operand (ih operand (List.mem_singleton_self operand) empty prev)
      | unary kind ops operand =>
          exact .unsigned (ih operand (List.mem_singleton_self operand) empty prev)

theorem marks_derive {rules : List Rule}
    (found : ∀ r ∈ rules, t.rule? r.name = some r) :
    ∀ name ∈ Grammar.nullableRules rules, ∀ prev, t.Derives R prev (.ref name) [] := by
  apply Grammar.nullableRules_induction rules
    (motive := fun known => ∀ name ∈ known, ∀ prev, t.Derives R prev (.ref name) [])
    (fun _ none => absurd none List.not_mem_nil)
  intro known marked r member empty
  refine List.forall_mem_cons.mpr ⟨fun prev => ?_, marked⟩
  exact .ref (found r member) (derives_of_nullable marked empty prev)

/-- An expression of a grammar that passed all checks is said to match the empty
sequence exactly if it derives it. The marks behind this are the least that leave
nothing to mark, and where every answer is kept for its expression, the one that
was kept last is this one: none that was given on the way is left. -/
theorem nullable_iff_derives {g : Grammar} (built : build g = .ok t)
    (counted : ∀ r ∈ g.rules, ∀ e ∈ r.body.parts, e.counted = true) :
    (∀ e, t.Part e → (t.nullable e = true ↔ t.Derives .terminals none e [])) ∧
      (∀ r ∈ g.rules, t.nullable (.ref r.name) = t.nullable r.body) ∧
      Grammar.nullableRound g.rules t.nullables = t.nullables ∧
      (∀ known, Grammar.Closed g.rules known → t.nullables ⊆ known) ∧
      ∀ e, t.Part e → (∀ name, e ≠ .ref name) → ∀ empty,
        Latest (Grammar.answers g.rules) e empty ↔ empty = t.nullable e := by
  have accepted := accepted_of_build built
  have same := rules_of_build built
  have closed : Grammar.Closed g.rules t.nullables := same ▸ accepted.closed
  have marks : t.nullables = Grammar.nullableRules g.rules := by
    obtain rfl : (draft g).1 = t := congrArg Prod.fst (build_eq_ok built).2.2.2.2.1
    rfl
  refine ⟨?_, ?_, closed.round, ?_, ?_⟩
  · rintro e ⟨r, member, inside⟩
    rw [same] at member
    have every : ∀ p, t.Part p → p.counted = true := by
      rintro p ⟨q, rule, below⟩
      exact counted q (same ▸ rule) p below
    constructor
    · intro empty
      rw [nullable, marks] at empty
      exact derives_of_nullable (marks_derive (rule?_of_build built)) empty none
    · intro derives
      exact derives.nullable accepted.closed every rfl fun p below =>
        counted r member p (Expr.mem_parts_trans below inside)
  · intro r member
    rw [Bool.eq_iff_iff]
    constructor
    · exact accepted.supported (rule?_of_build built r member)
    · intro empty
      exact List.contains_iff_mem.mpr (closed r member empty)
  · intro known closed
    rw [marks]
    exact Grammar.nullableRules_least closed
  · rintro e ⟨r, member, inside⟩ plain empty
    rw [nullable, marks]
    exact Grammar.latest_answers_iff (same ▸ member) inside plain empty

theorem nullable_iff_derives_mq :
    mq.Derives .terminals none (.stmts "" (.ref "_statement") []) [] ∧
      ¬mq.Derives .terminals none (.ref "_statement") [] := by
  obtain ⟨exactly, _⟩ := nullable_iff_derives Mq.build_eq (by decide +kernel)
  constructor
  · exact (exactly _ ⟨_, List.mem_cons_self, List.mem_cons_self⟩).mp rfl
  · intro derives
    have empty := (exactly _ ⟨_, List.mem_cons_self,
      List.mem_cons_of_mem _ List.mem_cons_self⟩).mpr derives
    exact absurd empty (by decide +kernel)

end Table

end MqTree
