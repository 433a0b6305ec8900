import Mathlib.Data.List.Perm.Subperm
import MqTree.Proofs.Grammar.Parts

namespace MqTree

namespace Expr

variable {known : List String}

theorem allNullable_eq (es : List Expr) : allNullable known es = es.all (nullable known) := by
  induction es with
  | nil => rfl
  | cons e es ih => rw [allNullable, ih, List.all_cons]

theorem anyNullable_eq (es : List Expr) : anyNullable known es = es.any (nullable known) := by
  induction es with
  | nil => rfl
  | cons e es ih => rw [anyNullable, ih, List.any_cons]

theorem nullable_mono {more : List String} (marked : known ⊆ more) {e : Expr}
    (empty : e.nullable known = true) : e.nullable more = true := by
  induction e using by_inners with
  | step e ih =>
      cases e with
      | tok | leaf => contradiction
      | ref name =>
          rw [nullable, List.contains_iff_mem] at empty ⊢
          exact marked empty
      | seq es =>
          rw [nullable, allNullable_eq, List.all_eq_true] at empty ⊢
          exact fun p member => ih p member (empty p member)
      | choice es | ordered es =>
          rw [nullable, anyNullable_eq, List.any_eq_true] at empty ⊢
          obtain ⟨p, member, own⟩ := empty
          exact ⟨p, member, ih p member own⟩
      | opt | sepBy | stmts => rfl
      | rep body min =>
          rw [nullable, Bool.or_eq_true] at empty ⊢
          exact empty.imp_right (ih body (List.mem_singleton_self body))
      | field _ body | immediate body | sameLine body | binary _ body | unary _ _ body =>
          exact ih body (List.mem_singleton_self body) empty
      | suffixed head => exact ih head List.mem_cons_self empty

end Expr

namespace Grammar

/-- Whether a rule is marked if its body matches the empty sequence by what is
marked. -/
def Closed (rules : List Rule) (known : List String) : Prop :=
  ∀ r ∈ rules, r.body.nullable known = true → r.name ∈ known

theorem nullableRound_cons (r : Rule) (rules : List Rule) (known : List String) :
    nullableRound (r :: rules) known =
      nullableRound rules
        (if known.contains r.name then known
        else if r.body.nullable known then r.name :: known else known) := rfl

def Supported (rules : List Rule) (known : List String) : Prop :=
  ∀ name ∈ known, ∃ r ∈ rules, r.name = name ∧ r.body.nullable known = true

variable {rules : List Rule} {known : List String}

theorem Supported.cons {r : Rule} (supported : Supported rules known) (member : r ∈ rules)
    (empty : r.body.nullable known = true) : Supported rules (r.name :: known) := by
  have more := List.subset_cons_self r.name known
  refine List.forall_mem_cons.mpr ⟨⟨r, member, rfl, Expr.nullable_mono more empty⟩, ?_⟩
  intro name marked
  obtain ⟨q, inside, named, own⟩ := supported name marked
  exact ⟨q, inside, named, Expr.nullable_mono more own⟩

/-- What holds of no marks, and goes on to hold when a rule is marked whose body
matches the empty sequence by the marks so far, holds behind every round. -/
theorem nullableRound_induction {motive : List String → Prop} {all : List Rule}
    (step : ∀ known, motive known → ∀ r ∈ all, r.body.nullable known = true →
      motive (r.name :: known))
    (inside : rules ⊆ all) (start : motive known) : motive (nullableRound rules known) := by
  induction rules generalizing known with
  | nil => exact start
  | cons r rules ih =>
      obtain ⟨member, later⟩ := List.cons_subset.mp inside
      rw [nullableRound_cons]
      split
      · exact ih later start
      · split
        next empty => exact ih later (step known start r member empty)
        next => exact ih later start

theorem nullableClosure_induction {motive : List String → Prop}
    (step : ∀ known, motive known → ∀ r ∈ rules, r.body.nullable known = true →
      motive (r.name :: known))
    (n : Nat) (start : motive known) : motive (nullableClosure rules n known) := by
  induction n generalizing known with
  | zero => exact start
  | succ n ih =>
      rw [nullableClosure]
      split
      · exact start
      · exact ih (nullableRound_induction step (List.Subset.refl rules) start)

theorem nullableRules_induction {motive : List String → Prop} (rules : List Rule)
    (start : motive []) (step : ∀ known, motive known → ∀ r ∈ rules,
      r.body.nullable known = true → motive (r.name :: known)) : motive (nullableRules rules) :=
  nullableClosure_induction step _ start

theorem nullableRound_marks (all : List String) (unique : known.Nodup) (marked : known ⊆ all)
    (names : ∀ r ∈ rules, r.name ∈ all) :
    (nullableRound rules known).Nodup ∧ nullableRound rules known ⊆ all ∧
      known <:+ nullableRound rules known := by
  induction rules generalizing known with
  | nil => exact ⟨unique, marked, List.suffix_refl known⟩
  | cons r rules ih =>
      obtain ⟨here, later⟩ := List.forall_mem_cons.mp names
      rw [nullableRound_cons]
      split
      · exact ih unique marked later
      next fresh =>
        split
        · have first : r.name ∉ known := by simpa using fresh
          obtain ⟨distinct, inside, grows⟩ := ih (List.nodup_cons.mpr ⟨first, unique⟩)
            (List.cons_subset.mpr ⟨here, marked⟩) later
          exact ⟨distinct, inside, (List.suffix_cons r.name known).trans grows⟩
        · exact ih unique marked later

theorem closed_of_round (still : (nullableRound rules known).length = known.length)
    (all : List String) (unique : known.Nodup) (marked : known ⊆ all)
    (names : ∀ r ∈ rules, r.name ∈ all) : Closed rules known := by
  induction rules with
  | nil => exact fun r none => absurd none List.not_mem_nil
  | cons r rules ih =>
      obtain ⟨here, later⟩ := List.forall_mem_cons.mp names
      rw [nullableRound_cons] at still
      rintro q member empty
      split at still
      next old =>
        rcases List.mem_cons.mp member with rfl | other
        · simpa using old
        · exact ih still later q other empty
      next fresh =>
        split at still
        next =>
          have first : r.name ∉ known := by simpa using fresh
          have grows := (nullableRound_marks all (List.nodup_cons.mpr ⟨first, unique⟩)
            (List.cons_subset.mpr ⟨here, marked⟩) later).2.2.length_le
          rw [still, List.length_cons] at grows
          omega
        next full =>
          rcases List.mem_cons.mp member with rfl | other
          · exact absurd empty full
          · exact ih still later q other empty

theorem nullableClosure_closed {all : List String} {n : Nat} (unique : known.Nodup)
    (marked : known ⊆ all) (names : ∀ r ∈ rules, r.name ∈ all)
    (enough : all.length < known.length + n) : Closed rules (nullableClosure rules n known) := by
  induction n generalizing known with
  | zero =>
      have few := (List.subperm_of_subset unique marked).length_le
      omega
  | succ n ih =>
      obtain ⟨distinct, inside, grows⟩ := nullableRound_marks all unique marked names
      rw [nullableClosure]
      split
      next still => exact closed_of_round still all unique marked names
      next more =>
        have longer := grows.length_le
        exact ih distinct inside (by omega)

theorem nullableRules_closed (rules : List Rule) : Closed rules (nullableRules rules) := by
  apply @nullableClosure_closed rules [] (rules.map Rule.name) _ List.nodup_nil (List.nil_subset _)
  · exact fun r member => List.mem_map_of_mem member
  · simp

theorem nullableRules_supported (rules : List Rule) : Supported rules (nullableRules rules) :=
  nullableRules_induction rules (fun _ none => absurd none List.not_mem_nil)
    fun _ supported _ member empty => supported.cons member empty

/-- The marks are in every set of marks that leaves nothing to mark. -/
theorem nullableRules_least {more : List String} (closed : Closed rules more) :
    nullableRules rules ⊆ more := by
  apply nullableRules_induction (motive := (· ⊆ more)) rules (List.nil_subset more)
  intro known inside r member empty
  exact List.cons_subset.mpr ⟨closed r member (Expr.nullable_mono inside empty), inside⟩

theorem Closed.round (closed : Closed rules known) : nullableRound rules known = known := by
  induction rules with
  | nil => rfl
  | cons r rules ih =>
      obtain ⟨own, others⟩ := List.forall_mem_cons.mp closed
      rw [nullableRound_cons]
      split
      · exact ih others
      next fresh =>
        split
        next empty => exact absurd (List.contains_iff_mem.mpr (own empty)) fresh
        next => exact ih others

end Grammar

end MqTree
