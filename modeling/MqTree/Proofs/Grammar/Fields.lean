import MqTree.Proofs.Grammar.MqLaw
import MqTree.Proofs.Grammar.Parts
import MqTree.Proofs.Lexer.Next

namespace MqTree

namespace Expr

mutual

def single : Expr → Bool
  | .tok _ _ | .leaf _ _ | .ref _ => true
  | .choice alts | .ordered alts => allSingle alts
  | .immediate body | .sameLine body | .suffixed body _ _ | .binary _ body _ | .unary _ _ body =>
      single body
  | .seq _ | .opt _ | .rep _ _ | .sepBy _ _ _ | .field _ _ | .stmts _ _ _ => false

def allSingle : List Expr → Bool
  | [] => true
  | e :: es => single e && allSingle es

end

theorem allSingle_eq_true {es : List Expr} :
    allSingle es = true ↔ ∀ e ∈ es, e.single = true := by
  induction es with
  | nil => simp [allSingle]
  | cons e es ih => rw [allSingle, Bool.and_eq_true, ih, List.forall_mem_cons]

mutual

def mentions (field : String) : Expr → Bool
  | .tok _ _ | .leaf _ _ | .ref _ => false
  | .seq es | .choice es | .ordered es => anyMentions field es
  | .opt body | .rep body _ | .sepBy body _ _ | .immediate body | .sameLine body =>
      mentions field body
  | .field name body | .stmts name body _ => name == field || mentions field body
  | .suffixed body _ _ | .binary _ body _ | .unary _ _ body => !single body

def anyMentions (field : String) : List Expr → Bool
  | [] => false
  | e :: es => mentions field e || anyMentions field es

end

theorem anyMentions_eq_false {field : String} {es : List Expr} :
    anyMentions field es = false ↔ ∀ e ∈ es, e.mentions field = false := by
  induction es with
  | nil => simp [anyMentions]
  | cons e es ih => rw [anyMentions, Bool.or_eq_false_iff, ih, List.forall_mem_cons]

def grants (field : String) : Expr → Bool
  | .field name body => name == field && body.single
  | _ => false

def members : Expr → List Expr
  | .seq es => es
  | e => [e]

/-- Whether the items of an expression in a field are so many, whatever else
there is. -/
def bears (field : String) (n : Nat) (e : Expr) : Bool :=
  (e.members.all fun p => !p.mentions field || p.grants field) &&
    e.members.countP (mentions field) == n

/-- What is left to do where the token can start an expression. -/
def begun : Expr → Expr
  | .sameLine body => body
  | e => e

def provides (kind field : String) : Expr → Bool
  | .leaf own _ => own != kind
  | .suffixed head many suffixes =>
      suffixes.all fun x =>
        x.kind != kind ||
          (!many && head.single && x.tail.begun.bears field (if x.headField = field then 0 else 1))
  | .binary own operand _ =>
      own != kind || (operand.single && ["left", "operator", "right"].contains field)
  | .unary own _ operand =>
      own != kind || (operand.single && ["operator", "operand"].contains field)
  | _ => true

end Expr

def tokenSymbols : List String :=
  keywords ++ punctuationMarks ++ TokenKind.all.map TokenKind.name

theorem Token.symbol_mem {token : Token} (spells : token.kind.Spells token.lit) :
    token.symbol ∈ tokenSymbols := by
  rw [tokenSymbols, List.mem_append, List.mem_append, Token.symbol]
  cases kind : token.kind
  all_goals rw [kind] at spells
  case keyword => exact Or.inl (Or.inl spells)
  case punctuation => exact Or.inl (Or.inr spells)
  all_goals exact Or.inr (List.mem_map_of_mem (by decide))

namespace Table

/-- Whether what is spliced into a node is one node each time. -/
def Focused (t : Table) : Prop :=
  ∀ {name r}, t.rule? name = some r → r.hidden = true → r.body.single = true

theorem Part.begun {t : Table} {e : Expr} (part : t.Part e) : t.Part e.begun := by
  cases e with
  | sameLine body => exact part.only rfl
  | _ => exact part

structure Requires (t : Table) (kind field : String) : Prop where
  named : field ≠ ""
  made : kind ∉ tokenSymbols ++ [errorKind, missingKind, sourceFile]
  rules : ∀ {name r}, t.rule? name = some r → r.hidden = false → r.nodeKind = kind →
    r.body.bears field 1 = true
  parts : ∀ {e}, t.Part e → e.provides kind field = true

end Table

namespace Mq

def requiredFields : List (String × List String) :=
  [("let_expr", ["name", "value"]), ("def_expr", ["name"]), ("module_expr", ["name"]),
    ("import_expr", ["path"]), ("include_expr", ["path"]), ("if_expr", ["condition", "body"]),
    ("elif_clause", ["condition", "body"]), ("else_clause", ["body"]), ("match_expr", ["value"]),
    ("match_arm", ["pattern", "body"]), ("rest_pattern", ["variable"]),
    ("foreach_expr", ["variable", "iterable"]), ("while_expr", ["condition"]),
    ("dict_entry", ["key", "value"]), ("function_expression", ["body"]),
    ("binary_expr", ["left", "operator", "right"]), ("unary_expr", ["operator", "operand"]),
    ("call", ["function", "arguments"]), ("qualified_access", ["module", "function"])]

theorem hidden_single : ∀ r ∈ mq.rules, r.hidden = true → r.body.single = true := by
  decide +kernel

theorem focused : mq.Focused := by
  intro name r found hidden
  exact hidden_single r (Table.rule?_eq_some found).1 hidden

theorem required_made : ∀ entry ∈ requiredFields,
    entry.1 ∉ tokenSymbols ++ [errorKind, missingKind, sourceFile] ∧ "" ∉ entry.2 := by
  decide +kernel

theorem required_borne : ∀ entry ∈ requiredFields, ∀ r ∈ mq.rules, r.hidden = false →
    r.nodeKind = entry.1 → ∀ field ∈ entry.2, r.body.bears field 1 = true := by
  decide +kernel

theorem required_provided : ∀ r ∈ mq.rules, ∀ e ∈ r.body.parts, ∀ entry ∈ requiredFields,
    ∀ field ∈ entry.2, e.provides entry.1 field = true := by
  decide +kernel

theorem requires {kind field : String} {fields : List String}
    (listed : (kind, fields) ∈ requiredFields) (member : field ∈ fields) :
    mq.Requires kind field where
  named := by
    rintro rfl
    exact (required_made _ listed).2 member
  made := (required_made _ listed).1
  rules found visible same :=
    required_borne _ listed _ (Table.rule?_eq_some found).1 visible same field member
  parts := by
    rintro e ⟨r, rule, inside⟩
    exact required_provided r rule e inside _ listed field member

end Mq

end MqTree
