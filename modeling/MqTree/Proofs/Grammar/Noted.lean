import MqTree.Proofs.Grammar.Accepted
import MqTree.Proofs.Grammar.Latest

namespace MqTree

/-! The equations for first terminals, and how the checks work the sets out
again: every expression that is looked at has its set noted. -/

namespace Table

variable {t : Table}

def Equation (t : Table) (first : Expr → TermSet) : Expr → Prop
  | e@(.tok sym _) | e@(.leaf _ sym) => first e = t.terminal sym
  | e@(.ref name) => ∃ r, t.rule? name = some r ∧ first e = first r.body
  | e@(.seq items) => ∀ id, (first e).has id = true ↔
      ∃ front item back, items = front ++ item :: back ∧ (∀ x ∈ front, t.nullable x = true) ∧
        (first item).has id = true
  | e@(.choice alts) | e@(.ordered alts) => ∀ id, (first e).has id = true ↔
      ∃ alt ∈ alts, (first alt).has id = true
  | e@(.opt body) | e@(.rep body _) | e@(.sepBy body _ _) | e@(.field _ body) | e@(.immediate body)
  | e@(.sameLine body) | e@(.stmts _ body _) | e@(.suffixed body _ _) | e@(.binary _ body _) =>
      first e = first body
  | e@(.unary _ ops operand) => ∀ id, (first e).has id = true ↔
      (∃ op ∈ ops, (t.terminal op).has id = true) ∨ (first operand).has id = true

theorem exists_split_cons {α : Type} {N P : α → Prop} {x : α} {xs : List α} :
    (∃ front y back, x :: xs = front ++ y :: back ∧ (∀ z ∈ front, N z) ∧ P y) ↔
      P x ∨ N x ∧ ∃ front y back, xs = front ++ y :: back ∧ (∀ z ∈ front, N z) ∧ P y := by
  constructor
  · rintro ⟨front, y, back, split, before, own⟩
    cases front with
    | nil =>
        obtain ⟨rfl, _⟩ := List.cons.inj split
        exact Or.inl own
    | cons z front =>
        obtain ⟨rfl, rest⟩ := List.cons.inj split
        obtain ⟨first, others⟩ := List.forall_mem_cons.mp before
        exact Or.inr ⟨first, front, y, back, rest, others, own⟩
  · rintro (own | ⟨first, front, y, back, rfl, before, own⟩)
    · exact ⟨[], x, xs, rfl, fun _ none => absurd none List.not_mem_nil, own⟩
    · exact ⟨x :: front, y, back, rfl, List.forall_mem_cons.mpr ⟨first, before⟩, own⟩

variable {look : String → TermSet} {id : Int}

theorem has_firstOfSeqBy (es : List Expr) :
    (t.firstOfSeqBy look es).has id = true ↔
      ∃ front e back, es = front ++ e :: back ∧ (∀ x ∈ front, t.nullable x = true) ∧
        (t.firstBy look e).has id = true := by
  induction es with
  | nil =>
      refine iff_of_false (Bool.eq_false_iff.mp (TermSet.has_empty id)) ?_
      rintro ⟨front, e, back, split, _⟩
      simp at split
  | cons e es ih =>
      rw [exists_split_cons, ← ih, firstOfSeqBy_cons]
      cases empty : e.nullable t.nullables with
      | true => rw [if_pos rfl, TermSet.has_or, and_iff_right (show t.nullable e = true from empty)]
      | false =>
          have full : ¬t.nullable e = true := by simp [nullable, empty]
          rw [if_neg Bool.false_ne_true, or_iff_left fun later => full later.1]

theorem has_firstOfAltsBy (es : List Expr) :
    (t.firstOfAltsBy look es).has id = true ↔ ∃ e ∈ es, (t.firstBy look e).has id = true := by
  induction es with
  | nil =>
      refine iff_of_false (Bool.eq_false_iff.mp (TermSet.has_empty id)) ?_
      rintro ⟨e, member, _⟩
      contradiction
  | cons e es ih =>
      rw [List.exists_mem_cons_iff, ← ih]
      exact TermSet.has_or

theorem has_foldr {ops : List String} {set : TermSet} :
    (ops.foldr (fun op set => t.terminal op ||| set) set).has id = true ↔
      (∃ op ∈ ops, (t.terminal op).has id = true) ∨ set.has id = true := by
  induction ops with
  | nil => simp
  | cons op ops ih => rw [List.foldr_cons, TermSet.has_or, ih, List.exists_mem_cons_iff, or_assoc]

theorem Accepted.equation (accepted : t.Accepted) {e : Expr} (part : t.Part e) :
    t.Equation t.first e := by
  cases e with
  | ref name =>
      obtain ⟨r, found⟩ := Option.isSome_iff_exists.mp (accepted.resolved name part)
      exact ⟨r, found, accepted.ranked.first found⟩
  | seq items => exact fun id => has_firstOfSeqBy items
  | choice alts | ordered alts => exact fun id => has_firstOfAltsBy alts
  | unary kind ops operand => exact fun id => has_foldr
  | _ => rfl

abbrev Notes := List (Expr × TermSet)

def noted (e : Expr) (found : TermSet × Notes) : TermSet × Notes :=
  (found.1, (e, found.1) :: found.2)

mutual

/-- The terminals that can start an expression, and what is noted on the way.
Nothing is noted for a reference, since the rule has its set. -/
def work (t : Table) : Expr → TermSet × Notes
  | .ref name => (t.ruleFirst name, [])
  | e@(.tok sym _) | e@(.leaf _ sym) => noted e (t.terminal sym, [])
  | e@(.seq items) => noted e (workSeq t items)
  | e@(.choice alts) | e@(.ordered alts) => noted e (workAlts t alts)
  | e@(.opt body) | e@(.rep body _) | e@(.sepBy body _ _) | e@(.field _ body) | e@(.immediate body)
  | e@(.sameLine body) | e@(.stmts _ body _) | e@(.suffixed body _ _) | e@(.binary _ body _) =>
      noted e (work t body)
  | e@(.unary _ ops operand) =>
      let found := work t operand
      noted e (ops.foldr (fun op set => t.terminal op ||| set) found.1, found.2)

def workSeq (t : Table) : List Expr → TermSet × Notes
  | [] => (TermSet.empty, [])
  | e :: es =>
      let found := work t e
      if t.nullable e then
        let others := workSeq t es
        (found.1 ||| others.1, others.2 ++ found.2)
      else
        found

def workAlts (t : Table) : List Expr → TermSet × Notes
  | [] => (TermSet.empty, [])
  | e :: es =>
      let found := work t e
      let others := workAlts t es
      (found.1 ||| others.1, others.2 ++ found.2)

end

/-- The notes that are there when some expressions have been worked out, one after
the other. -/
def notes (t : Table) (early : Notes) (asked : List Expr) : Notes :=
  asked.foldl (fun entries e => (t.work e).2 ++ entries) early

def Works (t : Table) (found : TermSet × Notes) (set : TermSet) : Prop :=
  found.1 = set ∧ ∀ entry ∈ found.2, entry.2 = t.first entry.1

theorem Works.plain (set : TermSet) : t.Works (set, []) set :=
  ⟨rfl, fun _ none => absurd none List.not_mem_nil⟩

theorem Works.noted {found : TermSet × Notes} {e : Expr} (works : t.Works found (t.first e)) :
    t.Works (noted e found) (t.first e) :=
  ⟨works.1, List.forall_mem_cons.mpr works⟩

theorem workSeq_works {es : List Expr} (each : ∀ e ∈ es, t.Works (t.work e) (t.first e)) :
    t.Works (t.workSeq es) (t.firstOfSeqBy t.ruleFirst es) := by
  induction es with
  | nil => exact .plain _
  | cons e es ih =>
      obtain ⟨own, others⟩ := List.forall_mem_cons.mp each
      rw [workSeq, firstOfSeqBy_cons]
      change t.Works _ (if t.nullable e then _ else _)
      split
      · have later := ih others
        exact ⟨congrArg₂ TermSet.union own.1 later.1,
          List.forall_mem_append.mpr ⟨later.2, own.2⟩⟩
      · exact own

theorem workAlts_works {es : List Expr} (each : ∀ e ∈ es, t.Works (t.work e) (t.first e)) :
    t.Works (t.workAlts es) (t.firstOfAltsBy t.ruleFirst es) := by
  induction es with
  | nil => exact .plain _
  | cons e es ih =>
      obtain ⟨own, others⟩ := List.forall_mem_cons.mp each
      have later := ih others
      exact ⟨congrArg₂ TermSet.union own.1 later.1,
        List.forall_mem_append.mpr ⟨later.2, own.2⟩⟩

theorem work_works (t : Table) (e : Expr) : t.Works (t.work e) (t.first e) := by
  induction e using Expr.by_inners with
  | step e ih =>
      cases e with
      | ref name => exact .plain _
      | tok | leaf => exact Works.noted (.plain _)
      | seq es => exact Works.noted (workSeq_works ih)
      | choice es | ordered es => exact Works.noted (workAlts_works ih)
      | opt body | rep body | sepBy body | field _ body | immediate body | sameLine body
      | stmts _ body | binary _ body =>
          exact Works.noted (ih body (List.mem_singleton_self body))
      | suffixed head => exact Works.noted (ih head List.mem_cons_self)
      | unary _ ops operand =>
          obtain ⟨found, others⟩ := ih operand (List.mem_singleton_self operand)
          exact Works.noted
            ⟨congrArg (ops.foldr fun op set => t.terminal op ||| set) found, others⟩

theorem mem_work {e : Expr} (plain : ∀ name, e ≠ .ref name) :
    (e, t.first e) ∈ (t.work e).2 := by
  rw [← (t.work_works e).1]
  cases e with
  | ref name => exact absurd rfl (plain name)
  | _ => exact List.mem_cons_self

/-- What is noted last for an expression that was worked out is its set, whatever
was noted earlier. -/
theorem latest_notes_iff {early : Notes} {asked : List Expr} {e : Expr} (member : e ∈ asked)
    (plain : ∀ name, e ≠ .ref name) (set : TermSet) :
    Latest (t.notes early asked) e set ↔ set = t.first e :=
  latest_foldl_iff (fun x _ => (t.work_works x).2) ⟨e, member, mem_work plain⟩

end Table

end MqTree
