import MqTree.Grammar.Table

namespace MqTree

/-! The sequences that an expression stands for, said without a parser: what a
grammar means is defined here, and what the checks and the parser make of it is
compared with that. -/

/-- How a grammar looks at the things that sequences are made of. -/
structure Reading (α : Type) where
  symbol : α → String
  spelled : List String → α → Prop
  adjacent : Option α → α → Prop
  sameLine : α → Prop
  /-- Whether suffixes can follow each other, of an expression that asks for
  many of them or not. -/
  repeats : Bool → Prop

def Reading.terminals : Reading String where
  symbol := id
  spelled _ _ := True
  adjacent _ _ := True
  sameLine _ := True
  repeats _ := True

section

variable {α : Type}

/-- The thing before whatever follows `w`, which itself follows `prev`. -/
def behind (prev : Option α) (w : List α) : Option α := w.getLast?.or prev

@[simp] theorem behind_nil (prev : Option α) : behind prev [] = prev := rfl

@[simp] theorem behind_append (prev : Option α) (u v : List α) :
    behind prev (u ++ v) = behind (behind prev u) v := by
  rw [behind, List.getLast?_append, Option.or_assoc]
  rfl

@[simp] theorem behind_cons (prev : Option α) (a : α) (w : List α) :
    behind prev (a :: w) = behind (some a) w := by
  rw [← List.singleton_append, behind_append]
  rfl

/-- The sequences of an expression, behind `prev`. -/
inductive Table.Derives (t : Table) (R : Reading α) : Option α → Expr → List α → Prop
  | tok (symbol : R.symbol a = sym) (word : words = [] ∨ R.spelled words a) :
      Derives t R prev (.tok sym words) [a]
  | leaf (symbol : R.symbol a = sym) : Derives t R prev (.leaf kind sym) [a]
  | ref {name : String} (found : t.rule? name = some r) (inner : Derives t R prev r.body w) :
      Derives t R prev (.ref name) w
  | nil : Derives t R prev (.seq []) []
  | cons (head : Derives t R prev e u) (rest : Derives t R (behind prev u) (.seq es) v) :
      Derives t R prev (.seq (e :: es)) (u ++ v)
  | choice (member : alt ∈ alts) (inner : Derives t R prev alt w) :
      Derives t R prev (.choice alts) w
  | ordered (member : alt ∈ alts) (inner : Derives t R prev alt w) :
      Derives t R prev (.ordered alts) w
  | absent : Derives t R prev (.opt body) []
  | present (inner : Derives t R prev body w) : Derives t R prev (.opt body) w
  | enough {min : Int} (none : min ≤ 0) : Derives t R prev (.rep body min) []
  | copy {min : Int} (one : Derives t R prev body u)
      (more : Derives t R (behind prev u) (.rep body (min - 1)) v) :
      Derives t R prev (.rep body min) (u ++ v)
  | noElement : Derives t R prev (.sepBy elem sep trailing) []
  | elements (one : Derives t R prev elem u)
      (more : Derives t R (behind prev u) (.rep (.seq [.tok sep [], elem]) 0) v) :
      Derives t R prev (.sepBy elem sep trailing) (u ++ v)
  | trailing (one : Derives t R prev elem u)
      (more : Derives t R (behind prev u) (.rep (.seq [.tok sep [], elem]) 0) v)
      (symbol : R.symbol a = sep) : Derives t R prev (.sepBy elem sep true) (u ++ (v ++ [a]))
  | field {name : String} (inner : Derives t R prev body w) : Derives t R prev (.field name body) w
  | immediate (inner : Derives t R prev body w) (first : ∀ a ∈ w.head?, R.adjacent prev a) :
      Derives t R prev (.immediate body) w
  | sameLine (inner : Derives t R prev body w) (first : ∀ a ∈ w.head?, R.sameLine a) :
      Derives t R prev (.sameLine body) w
  | noStatement : Derives t R prev (.stmts field item closers) []
  | statement (one : Derives t R prev item u)
      (more : Derives t R (behind prev u) (.stmts field item closers) v) :
      Derives t R prev (.stmts field item closers) (u ++ v)
  | head (inner : Derives t R prev head w) : Derives t R prev (.suffixed head many suffixes) w
  | suffix (front : Derives t R prev head u) (member : x ∈ suffixes)
      (tail : Derives t R (behind prev u) x.tail v) :
      Derives t R prev (.suffixed head many suffixes) (u ++ v)
  | suffixes (again : R.repeats many) (front : Derives t R prev (.suffixed head many suffixes) u)
      (member : x ∈ suffixes) (tail : Derives t R (behind prev u) x.tail v) :
      Derives t R prev (.suffixed head many suffixes) (u ++ v)
  | operand (inner : Derives t R prev operand w) : Derives t R prev (.binary kind operand ops) w
  | operator (left : Derives t R prev (.binary kind operand ops) u)
      (symbol : R.symbol a ∈ ops.map Prod.fst) (right : Derives t R (some a) operand v) :
      Derives t R prev (.binary kind operand ops) (u ++ a :: v)
  | unsigned (inner : Derives t R prev operand w) : Derives t R prev (.unary kind ops operand) w
  | signed (symbol : R.symbol a ∈ ops) (inner : Derives t R (some a) (.unary kind ops operand) w) :
      Derives t R prev (.unary kind ops operand) (a :: w)

end

end MqTree
