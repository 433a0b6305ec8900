import MqTree.Parser.Basic

namespace MqTree

open MqTree.Parser

/-! What a grammar must keep to so that every parse by it makes progress: where
an expression is entered because the token can start it, the token is taken. -/

namespace Expr

mutual

/-- Whether the class of the first token alone decides where an expression can
start. -/
def plain : Expr → Bool
  | .tok _ words => words.isEmpty
  | .immediate _ | .sameLine _ => false
  | .field _ body => plain body
  | .seq items => plainHead items
  | .choice alts | .ordered alts => plainAll alts
  | _ => true

def plainHead : List Expr → Bool
  | [] => true
  | e :: _ => plain e

def plainAll : List Expr → Bool
  | [] => true
  | e :: es => plain e && plainAll es

end

mutual

/-- Whether a token that can start an expression is always taken by it. -/
def leads (known : List String) : Expr → Bool
  | .tok _ _ | .leaf _ _ | .ref _ => true
  | .seq items => leadsHead known items
  | .choice alts => leadsAll known alts
  | .field _ body | .immediate body | .sameLine body => leads known body
  | .suffixed head _ _ => leads known head && head.plain
  | .binary _ operand _ | .unary _ _ operand => leads known operand && operand.plain
  | .ordered _ | .opt _ | .rep _ _ | .sepBy _ _ _ | .stmts _ _ _ => false

def leadsHead (known : List String) : List Expr → Bool
  | [] => false
  | e :: _ => leads known e && !e.nullable known

def leadsAll (known : List String) : List Expr → Bool
  | [] => true
  | e :: es => leads known e && leadsAll known es

end

mutual

def titled : Expr → Bool
  | .tok _ _ | .leaf _ _ | .ref _ => true
  | .seq items => titledHead items
  | .choice alts => titledAll alts
  | .suffixed head _ _ => titled head
  | .binary _ operand _ | .unary _ _ operand => titled operand
  | _ => false

def titledHead : List Expr → Bool
  | [] => false
  | e :: _ => titled e

def titledAll : List Expr → Bool
  | [] => true
  | e :: es => titled e && titledAll es

end

mutual

/-- How deep tasks nest before a token is taken, given the same of the rules.
With `led`, the token is known to start the expression. -/
def cost (rank : String → Nat) (led : Bool) : Expr → Nat
  | .tok _ _ | .leaf _ _ => 1
  | .ref name => 1 + rank name
  | .seq items => 1 + costOfSeq rank led items
  | .choice alts => 1 + costOfAlts rank true alts
  | .ordered alts => 1 + max (costOfAlts rank true alts) (costOfAlts rank false alts)
  | .opt body | .immediate body | .sameLine body => 1 + cost rank true body
  | .rep body min => 2 + min.toNat + cost rank true body
  | .sepBy body _ _ | .stmts _ body _ => 2 + cost rank true body
  | .field _ body => 1 + cost rank led body
  | .suffixed head _ suffixes => 2 + max (cost rank led head) (costOfTails rank suffixes)
  | .binary _ operand _ => 3 + cost rank led operand
  | .unary _ _ operand => 1 + cost rank led operand

def costOfSeq (rank : String → Nat) (led : Bool) : List Expr → Nat
  | [] => 0
  | e :: es => if led then cost rank true e else max (cost rank false e) (costOfSeq rank false es)

def costOfAlts (rank : String → Nat) (led : Bool) : List Expr → Nat
  | [] => 0
  | e :: es => max (cost rank led e) (costOfAlts rank led es)

def costOfTails (rank : String → Nat) : List (Suffix Expr) → Nat
  | [] => 0
  | ⟨_, _, tail⟩ :: rest => max (cost rank true tail) (costOfTails rank rest)

end

theorem cost_pos (rank : String → Nat) (led : Bool) (e : Expr) : 0 < e.cost rank led := by
  cases e <;> simp only [cost] <;> omega

def closes : Expr → Bool
  | .seq items =>
      match items.getLast? with
      | some (.tok _ _) => true
      | _ => false
  | _ => false

end Expr

def isProper (kind : String) : Bool :=
  !([endSymbol, commentSymbol, errorKind, missingKind].contains kind)

def isMark (sym : String) : Bool :=
  !(keywords.contains sym || (TokenKind.all.map TokenKind.name).contains sym)

/-- How the rules of a grammar hang together. -/
structure Outline where
  /-- How deep tasks nest before a rule's first token is taken. -/
  rank : String → Nat
  inner : List String
  bound : Nat
  statement : String

namespace Outline

def affords (o : Outline) (e : Expr) : Bool :=
  e.cost o.rank true ≤ o.bound && e.cost o.rank false ≤ o.bound

def isStatement (o : Outline) : Expr → Bool
  | .ref name => name == o.statement
  | _ => false

end Outline

namespace Table

variable (t : Table) (o : Outline)

mutual

/-- What an expression and its parts must keep to, in attempts and outside of
them. -/
def admits : Bool → Expr → Bool
  | _, e@(.tok sym _) => o.affords e && isProper sym
  | _, e@(.leaf kind sym) => o.affords e && isProper kind && isProper sym
  | trial, e@(.ref name) =>
      o.affords e && (t.rule? name).isSome && !t.nullable (.ref name) &&
        (!trial || o.inner.contains name)
  | trial, e@(.seq items) => o.affords e && admitsAll trial items
  | trial, e@(.choice alts) =>
      o.affords e && (describe? t e).isSome && Expr.leadsAll t.nullables alts &&
        admitsAll trial alts
  | trial, e@(.ordered alts) => o.affords e && !trial && admitsTrials alts
  | trial, e@(.opt body) => o.affords e && body.leads t.nullables && admits trial body
  | trial, e@(.rep body _) | trial, e@(.immediate body) | trial, e@(.sameLine body) =>
      o.affords e && (describe? t body).isSome && body.leads t.nullables && admits trial body
  | trial, e@(.sepBy elem sep _) =>
      o.affords e && sep != endSymbol && (describe? t elem).isSome &&
        elem.leads t.nullables && admits trial elem
  | trial, e@(.field _ body) => o.affords e && admits trial body
  | trial, e@(.stmts _ item _) =>
      o.affords e && !trial && o.isStatement item && admits trial item
  | trial, e@(.suffixed head _ suffixes) =>
      o.affords e && admits trial head && admitsTails trial suffixes
  | trial, e@(.binary kind operand _) => o.affords e && isProper kind && admits trial operand
  | trial, e@(.unary kind ops operand) =>
      o.affords e && isProper kind && ops.all isMark && admits trial operand

def admitsAll : Bool → List Expr → Bool
  | _, [] => true
  | trial, e :: es => admits trial e && admitsAll trial es

def admitsTrials : List Expr → Bool
  | [] => false
  | e :: es =>
      match es with
      | [] => admits false e
      | _ :: _ => e.leads t.nullables && e.closes && admits true e && admitsTrials es

def admitsTails : Bool → List (Suffix Expr) → Bool
  | _, [] => true
  | trial, ⟨kind, _, tail⟩ :: rest =>
      kind != "" && isProper kind && tail.leads t.nullables && admits trial tail &&
        admitsTails trial rest

end

def admitsRule (r : Rule) : Bool :=
  isProper r.nodeKind && r.body.leads t.nullables && r.body.plain && (!r.hidden || r.body.titled) &&
    r.body.cost o.rank true ≤ o.rank r.name && t.ruleFirst r.name == t.first r.body &&
    admits t o false r.body && (!o.inner.contains r.name || admits t o true r.body)

end Table

theorem Table.rule?_eq_some {t : Table} {name : String} {r : Rule} (found : t.rule? name = some r) :
    r ∈ t.rules ∧ r.name = name := by
  unfold rule? at found
  refine ⟨List.mem_of_find?_eq_some found, ?_⟩
  have named := List.find?_some found
  exact beq_iff_eq.mp named

structure Table.Lawful (t : Table) (o : Outline) : Prop where
  rules : ∀ {name r}, t.rule? name = some r → t.nullable (.ref name) = false →
    t.admitsRule o r = true
  start : ∃ r, t.rule? t.start = some r ∧ r.nodeKind = sourceFile ∧
    r.body = .stmts "" (.ref o.statement) [] ∧ t.admits o false r.body = true
  symbols : t.termId? endSymbol = some 0
  firsts : ∀ name, (t.ruleFirst name).getLsbD 0 = false
  bound_le : o.bound ≤ 4 * t.weight + 4

end MqTree
