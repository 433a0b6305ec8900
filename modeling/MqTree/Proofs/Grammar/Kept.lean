import MqTree.Proofs.Grammar.Latest
import MqTree.Proofs.Grammar.Nullable

namespace MqTree

/-! The search for the rules that match the empty sequence, with the answer for
every expression kept as it is found. An answer that is kept in one round can be
wrong in the next, which may have marked more rules. -/

abbrev Answers := List (Expr × Bool)

def Answers.Fresh (known : List String) (kept : Answers) : Prop :=
  ∀ a ∈ kept, a.2 = a.1.nullable known

namespace Expr

def keep (e : Expr) (found : Bool × Answers) : Bool × Answers :=
  (found.1, (e, found.1) :: found.2)

mutual

/-- Whether an expression matches the empty sequence, and what is kept on the way.
Nothing is kept for a reference, since the rule is marked itself. -/
def ask (known : List String) : Expr → Bool × Answers
  | .ref name => (known.contains name, [])
  | e@(.tok _ _) | e@(.leaf _ _) => e.keep (false, [])
  | e@(.seq items) => e.keep (askAll known items)
  | e@(.choice alts) | e@(.ordered alts) => e.keep (askAny known alts)
  | e@(.opt _) | e@(.sepBy _ _ _) | e@(.stmts _ _ _) => e.keep (true, [])
  | e@(.rep body min) => e.keep (if min == 0 then (true, []) else ask known body)
  | e@(.field _ body) | e@(.immediate body) | e@(.sameLine body) => e.keep (ask known body)
  | e@(.suffixed head _ _) => e.keep (ask known head)
  | e@(.binary _ operand _) | e@(.unary _ _ operand) => e.keep (ask known operand)

/-- The items are asked about up to the first that is not empty. -/
def askAll (known : List String) : List Expr → Bool × Answers
  | [] => (true, [])
  | e :: es =>
      let found := ask known e
      if found.1 then
        let others := askAll known es
        (others.1, others.2 ++ found.2)
      else
        found

def askAny (known : List String) : List Expr → Bool × Answers
  | [] => (false, [])
  | e :: es =>
      let found := ask known e
      if found.1 then
        found
      else
        let others := askAny known es
        (others.1, others.2 ++ found.2)

end

end Expr

namespace Grammar

def askRound (rules : List Rule) (s : List String × Answers) : List String × Answers :=
  rules.foldl
    (fun s r =>
      if s.1.contains r.name then s
      else
        let found := r.body.ask s.1
        (if found.1 then r.name :: s.1 else s.1, found.2 ++ s.2))
    s

def askClosure (rules : List Rule) : Nat → List String × Answers → List String × Answers
  | 0, s => s
  | n + 1, s =>
      let next := askRound rules s
      if next.1.length = s.1.length then next else askClosure rules n next

/-- The answers that are there when all is done: behind the rounds, every part of
every rule is asked about once more. -/
def answers (rules : List Rule) : Answers :=
  let s := askClosure rules (rules.length + 1) ([], [])
  (rules.flatMap (·.body.parts)).foldl (fun kept e => (e.ask s.1).2 ++ kept) s.2

end Grammar

theorem Answers.Fresh.append {known : List String} {kept more : Answers}
    (first : kept.Fresh known) (second : more.Fresh known) : Fresh known (kept ++ more) :=
  List.forall_mem_append.mpr ⟨first, second⟩

namespace Expr

variable {known : List String} {found : Bool × Answers} {empty : Bool}

def Tells (known : List String) (found : Bool × Answers) (empty : Bool) : Prop :=
  found.1 = empty ∧ found.2.Fresh known

theorem Tells.plain (empty : Bool) : Tells known (empty, []) empty :=
  ⟨rfl, fun _ none => absurd none List.not_mem_nil⟩

theorem Tells.keep {e : Expr} (told : Tells known found (e.nullable known)) :
    Tells known (e.keep found) (e.nullable known) :=
  ⟨told.1, List.forall_mem_cons.mpr told⟩

theorem askAll_tells {es : List Expr}
    (each : ∀ e ∈ es, Tells known (e.ask known) (e.nullable known)) :
    Tells known (askAll known es) (allNullable known es) := by
  induction es with
  | nil => exact .plain true
  | cons e es ih =>
      obtain ⟨own, others⟩ := List.forall_mem_cons.mp each
      have later := ih others
      rw [askAll, allNullable, ← own.1]
      cases first : (e.ask known).1 with
      | true => exact ⟨later.1, later.2.append own.2⟩
      | false => exact ⟨first, own.2⟩

theorem askAny_tells {es : List Expr}
    (each : ∀ e ∈ es, Tells known (e.ask known) (e.nullable known)) :
    Tells known (askAny known es) (anyNullable known es) := by
  induction es with
  | nil => exact .plain false
  | cons e es ih =>
      obtain ⟨own, others⟩ := List.forall_mem_cons.mp each
      have later := ih others
      rw [askAny, anyNullable, ← own.1]
      cases first : (e.ask known).1 with
      | true => exact ⟨first, own.2⟩
      | false => exact ⟨later.1, later.2.append own.2⟩

theorem ask_tells (known : List String) (e : Expr) :
    Tells known (e.ask known) (e.nullable known) := by
  induction e using by_inners with
  | step e ih =>
      cases e with
      | ref name => exact .plain _
      | tok | leaf => exact Tells.keep (.plain false)
      | seq es => exact Tells.keep (askAll_tells ih)
      | choice es | ordered es => exact Tells.keep (askAny_tells ih)
      | opt | sepBy | stmts => exact Tells.keep (.plain true)
      | rep body min =>
          rw [ask]
          apply Tells.keep
          rw [nullable]
          cases min == 0 with
          | true => exact .plain true
          | false => exact ih body (List.mem_singleton_self body)
      | field _ body | immediate body | sameLine body | binary _ body | unary _ _ body =>
          exact Tells.keep (ih body (List.mem_singleton_self body))
      | suffixed head => exact Tells.keep (ih head List.mem_cons_self)

theorem mem_ask {e : Expr} (marked : ∀ name, e ≠ .ref name) :
    (e, e.nullable known) ∈ (e.ask known).2 := by
  rw [← (ask_tells known e).1]
  cases e with
  | ref name => exact absurd rfl (marked name)
  | _ => exact List.mem_cons_self

end Expr

namespace Grammar

variable {rules : List Rule} {known : List String}

theorem askRound_cons (r : Rule) (rules : List Rule) (s : List String × Answers) :
    askRound (r :: rules) s =
      askRound rules
        (if s.1.contains r.name then s
        else (if (r.body.ask s.1).1 then r.name :: s.1 else s.1, (r.body.ask s.1).2 ++ s.2)) := rfl

theorem askRound_marks (rules : List Rule) (s : List String × Answers) :
    (askRound rules s).1 = nullableRound rules s.1 := by
  induction rules generalizing s with
  | nil => rfl
  | cons r rules ih =>
      rw [askRound_cons, nullableRound_cons, ih]
      congr 1
      split
      · rfl
      · rw [(Expr.ask_tells s.1 r.body).1]

theorem askClosure_marks (n : Nat) (s : List String × Answers) :
    (askClosure rules n s).1 = nullableClosure rules n s.1 := by
  induction n generalizing s with
  | zero => rfl
  | succ n ih =>
      rw [askClosure, nullableClosure, ← askRound_marks]
      split
      next still =>
        have grows : s.1 <:+ (askRound rules s).1 := by
          rw [askRound_marks]
          exact nullableRound_induction (motive := (s.1 <:+ ·))
            (fun marks grown r _ _ => grown.trans (List.suffix_cons r.name marks))
            (List.Subset.refl rules) (List.suffix_refl s.1)
        exact (grows.eq_of_length still.symm).symm
      next => exact ih _

/-- The answer that was kept last for a part of a rule is the one that the marks
give in the end. -/
theorem latest_answers_iff {r : Rule} (member : r ∈ rules) {e : Expr} (inside : e ∈ r.body.parts)
    (plain : ∀ name, e ≠ .ref name) (empty : Bool) :
    Latest (answers rules) e empty ↔ empty = e.nullable (nullableRules rules) := by
  have marks : (askClosure rules (rules.length + 1) ([], [])).1 = nullableRules rules :=
    askClosure_marks (rules.length + 1) ([], [])
  have asked : e ∈ rules.flatMap (·.body.parts) := List.mem_flatMap.mpr ⟨r, member, inside⟩
  rw [answers, marks]
  exact latest_foldl_iff (fun p _ => (p.ask_tells _).2) ⟨e, asked, Expr.mem_ask plain⟩

end Grammar

end MqTree
