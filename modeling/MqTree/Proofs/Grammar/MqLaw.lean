import MqTree.Proofs.Grammar.Law

namespace MqTree

namespace Mq

/-- The rules that start with another rule, deepest first; all others start
with a terminal of their own. -/
def rank : String → Nat
  | "_statement" => 23
  | "_expression" => 21
  | "_primary" => 18
  | "_unary" => 14
  | "_postfixed" => 12
  | "_atom" => 9
  | "_identifier_head" => 7
  | "pattern" => 6
  | "literal_pattern" | "_pattern_element" | "dict_entry" => 4
  | _ => 2

def outline : Outline where
  rank := rank
  inner :=
    ["_primary", "_unary", "_postfixed", "_atom", "_identifier_head", "_boolean", "argument_list",
      "symbol", "array", "dict", "dict_entry", "group_expression", "function_expression",
      "interpolated_string", "interpolation", "dot_selector", "parameter_list"]
  bound := 30
  statement := "_statement"

theorem weight_ge : outline.bound ≤ 4 * mq.weight + 4 := by
  decide +kernel

theorem symbols_eq : mq.termId? endSymbol = some 0 := by
  decide +kernel

theorem firsts_no_end : ∀ first ∈ mq.firsts, first.2.getLsbD 0 = false := by
  decide +kernel

theorem rules_admitted :
    ∀ r ∈ mq.rules, mq.nullable (.ref r.name) = false → mq.admitsRule outline r = true := by
  decide +kernel

theorem start_admitted : mq.admits outline false (stmts "" []) = true := by
  decide +kernel

theorem rules_eq : mq.rules = grammar.rules := rfl

theorem start_eq : mq.rule? mq.start = some (node sourceFile [stmts "" []]) := by
  rw [Table.rule?, rules_eq]
  exact List.find?_cons_of_pos (beq_self_eq_true sourceFile)

theorem lawful : mq.Lawful outline where
  rules := by
    intro name r found required
    obtain ⟨member, named⟩ := Table.rule?_eq_some found
    rw [← named] at required
    exact rules_admitted r member required
  start := ⟨_, start_eq, rfl, rfl, start_admitted⟩
  symbols := symbols_eq
  firsts := by
    intro name
    unfold Table.ruleFirst
    cases found : mq.firsts.lookup name with
    | none => simp [TermSet.empty]
    | some set =>
        obtain ⟨before, after, split, _⟩ := List.lookup_eq_some_iff.mp found
        apply firsts_no_end (name, set)
        rw [split]
        exact List.mem_append_right _ List.mem_cons_self
  bound_le := weight_ge

end Mq

end MqTree
