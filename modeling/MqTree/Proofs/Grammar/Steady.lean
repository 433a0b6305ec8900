import Mathlib.Algebra.Order.BigOperators.Group.List
import Mathlib.Algebra.Order.Ring.Nat
import Mathlib.Logic.Relation
import MqTree.Proofs.Grammar.Accepted

namespace MqTree

/-! What a grammar needs besides passing the checks for every parse by it to
end. The checks look at first terminals only. An expression may ask more of its
first token than its terminal, and then leave a token for which it was entered;
what comes behind it is entered at the same token, and so on, perhaps for
ever. -/

namespace Expr

section

/- The firm rules take each token that is one of their first terminals. -/
variable (t : Table) (firm : List String)

/-- Whether an expression can start wherever another one can, by their first
terminals, or be empty. -/
def within (e other : Expr) : Bool :=
  t.first e &&& t.first other == t.first e && (!t.nullable e || t.nullable other)

mutual

/-- Whether an expression may leave a token for which it is entered: one of its
first terminals or, with `heeded`, one that can start it with all that it asks of
the token. -/
def slips (heeded : Bool) : Expr → Bool
  | .tok sym words => sym == endSymbol || !(heeded || words.isEmpty)
  | .leaf _ sym => sym == endSymbol
  | .ref name => !firm.contains name
  | .seq items => slipsInSeq heeded items
  | .choice alts => slipsInAlts heeded alts
  | .ordered alts => slipsInTrials alts
  | .field _ body => slips heeded body
  | .immediate body | .sameLine body => !heeded || slips heeded body
  | .opt body | .rep body _ | .sepBy body _ _ | .stmts _ body _ | .binary _ body _ =>
      slips false body
  -- What can follow an empty head is none of the first terminals.
  | .suffixed head _ suffixes => slips false head || (t.nullable head && !suffixes.isEmpty)
  | .unary _ ops operand => !ops.all isMark || slips false operand

def slipsInSeq (heeded : Bool) : List Expr → Bool
  | [] => false
  | e :: es => slips heeded e || (t.nullable e && slipsInSeq heeded es)

def slipsInAlts (heeded : Bool) : List Expr → Bool
  | [] => false
  | e :: es => slips heeded e || slipsInAlts heeded es

def slipsInTrials : List Expr → Bool
  | [] => true
  | e :: es =>
      match es.getLast? with
      | none => slips false e
      | some last => slips true e || !e.within t last || slipsInTrials es

end

mutual

/-- The rules that an expression may enter before a token is taken, if nothing is
known of the token. Where a part is entered only for a token that can start it
and that it takes, these are the rules that can start the part. -/
def enters : Expr → List String
  | .tok _ _ | .leaf _ _ => []
  | .ref name => [name]
  | .seq items => entersInSeq items
  | .choice alts => entersInAlts alts
  | .ordered alts => entersInTrials alts
  | .field _ body | .binary _ body _ | .unary _ _ body => enters body
  | .opt body | .rep body _ | .sepBy body _ _ | .immediate body | .sameLine body
  | .stmts _ body _ => if slips t firm true body then enters body else leaders t.nullables body
  | .suffixed head _ suffixes => enters head ++ entersInTails suffixes

def entersInSeq : List Expr → List String
  | [] => []
  | e :: es => enters e ++ entersInSeq es

def entersInAlts : List Expr → List String
  | [] => []
  | e :: es =>
      (if slips t firm true e then enters e else leaders t.nullables e) ++ entersInAlts es

def entersInTrials : List Expr → List String
  | [] => []
  | e :: es =>
      match es with
      | [] => enters e
      | _ :: _ =>
          (if slips t firm true e then enters e else leaders t.nullables e) ++ entersInTrials es

def entersInTails : List (Suffix Expr) → List String
  | [] => []
  | ⟨_, _, tail⟩ :: rest =>
      (if slips t firm true tail then enters tail else leaders t.nullables tail) ++
        entersInTails rest

end

def entered (led : Bool) (e : Expr) : List String :=
  if led then e.leaders t.nullables else e.enters t firm

def guarded (e : Expr) : List String := e.entered t firm (!e.slips t firm true)

def steady : Expr → Bool
  | .choice alts => !alts.isEmpty
  | .rep body _ | .stmts _ body _ => !body.slips t firm true
  | .sepBy _ sep _ => sep != endSymbol
  | .suffixed _ many suffixes => !many || suffixes.all fun x => !x.tail.slips t firm true
  | _ => true

end

variable {t : Table} {firm : List String}

theorem guarded_eq (e : Expr) :
    e.guarded t firm = if e.slips t firm true then e.enters t firm else e.leaders t.nullables := by
  rw [guarded, entered]
  cases e.slips t firm true <;> rfl

theorem guarded_subset {body e : Expr} {led : Bool}
    (lead : e.leaders t.nullables = body.leaders t.nullables)
    (enter : e.enters t firm = body.guarded t firm)
    (holds : led = true → body.slips t firm true = false) :
    body.guarded t firm ⊆ e.entered t firm led := by
  cases led with
  | true =>
      rw [guarded, holds rfl, entered, Bool.not_false, if_pos rfl, entered, if_pos rfl, lead]
      exact List.Subset.refl _
  | false =>
      rw [← enter]
      exact List.Subset.refl _

inductive Spares : Expr → Expr → Prop
  | opt {body : Expr} : Spares (.opt body) body
  | rep {body : Expr} {min : Int} : Spares (.rep body min) body
  | sepBy {body : Expr} {sep : String} {trailing : Bool} : Spares (.sepBy body sep trailing) body
  | stmts {name : String} {body : Expr} {closers : List String} :
      Spares (.stmts name body closers) body

namespace Spares

variable {e body : Expr}

theorem slips_eq (spares : Spares e body) (heeded : Bool) :
    e.slips t firm heeded = body.slips t firm false := by
  cases spares <;> rw [Expr.slips]

theorem first_eq (spares : Spares e body) : t.first e = t.first body := by
  cases spares <;> rfl

theorem guarded_subset (spares : Spares e body) {led : Bool}
    (holds : led = true → body.slips t firm true = false) :
    body.guarded t firm ⊆ e.entered t firm led := by
  apply Expr.guarded_subset _ _ holds
  · cases spares <;> rw [leaders]
  · cases spares <;> rw [enters, guarded_eq]

end Spares

mutual

theorem slips_heeded (e : Expr) (holds : e.slips t firm false = false) :
    e.slips t firm true = false := by
  match e with
  | .tok sym words =>
      rw [slips, Bool.or_eq_false_iff] at holds ⊢
      exact ⟨holds.1, rfl⟩
  | .field _ body =>
      rw [slips] at holds ⊢
      exact slips_heeded body holds
  | .immediate _ | .sameLine _ => simp [slips] at holds
  | .seq items =>
      rw [slips] at holds ⊢
      exact slipsInSeq_heeded items holds
  | .choice alts =>
      rw [slips] at holds ⊢
      exact slipsInAlts_heeded alts holds
  | .leaf .. | .ref _ | .ordered _ | .opt _ | .rep .. | .sepBy .. | .stmts .. | .suffixed ..
  | .binary .. | .unary .. =>
      rw [slips] at holds ⊢
      exact holds

theorem slipsInSeq_heeded (es : List Expr) (holds : slipsInSeq t firm false es = false) :
    slipsInSeq t firm true es = false := by
  match es with
  | [] => rfl
  | e :: es =>
      rw [slipsInSeq, Bool.or_eq_false_iff, Bool.and_eq_false_iff] at holds ⊢
      exact ⟨slips_heeded e holds.1, holds.2.imp_right (slipsInSeq_heeded es)⟩

theorem slipsInAlts_heeded (es : List Expr) (holds : slipsInAlts t firm false es = false) :
    slipsInAlts t firm true es = false := by
  match es with
  | [] => rfl
  | e :: es =>
      rw [slipsInAlts, Bool.or_eq_false_iff] at holds ⊢
      exact ⟨slips_heeded e holds.1, slipsInAlts_heeded es holds.2⟩

end

theorem slipsInAlts_eq (heeded : Bool) (es : List Expr) :
    slipsInAlts t firm heeded es = es.any (slips t firm heeded) := by
  induction es with
  | nil => rfl
  | cons e es ih => rw [slipsInAlts, ih, List.any_cons]

theorem slipsInTrials_cons (e next : Expr) (rest : List Expr) :
    slipsInTrials t firm (e :: next :: rest) =
      (e.slips t firm true || !e.within t ((next :: rest).getLast (List.cons_ne_nil next rest)) ||
        slipsInTrials t firm (next :: rest)) := by
  rw [slipsInTrials, List.getLast?_eq_some_getLast (List.cons_ne_nil next rest)]

theorem leadersOfAlts_eq (known : List String) (es : List Expr) :
    leadersOfAlts known es = es.flatMap (leaders known) := by
  induction es with
  | nil => rfl
  | cons e es ih => rw [leadersOfAlts, ih, List.flatMap_cons]

theorem entersInAlts_eq (es : List Expr) :
    entersInAlts t firm es = es.flatMap (guarded t firm) := by
  induction es with
  | nil => rfl
  | cons e es ih => rw [entersInAlts, ih, List.flatMap_cons, guarded_eq]

theorem entersInTails_eq (suffixes : List (Suffix Expr)) :
    entersInTails t firm suffixes = suffixes.flatMap fun x => x.tail.guarded t firm := by
  induction suffixes with
  | nil => rfl
  | cons x rest ih =>
      obtain ⟨kind, headField, tail⟩ := x
      rw [entersInTails, ih, List.flatMap_cons, guarded_eq]

/-! ### Weights -/

def ownWeight : Expr → Nat
  | .rep _ min => 1 + min.toNat
  | _ => 1

theorem weight_eq_sum (e : Expr) : e.weight = (e.parts.map ownWeight).sum := by
  rw [List.sum_eq_foldl, List.foldl_map, weight]
  congr 1
  funext n part
  cases part <;> simp only [ownWeight, Nat.add_assoc]

theorem weight_eq (e : Expr) : e.weight = e.ownWeight + (e.inners.map weight).sum := by
  rw [weight_eq_sum, parts_eq, List.map_cons, List.sum_cons, funext weight_eq_sum]
  induction e.inners with
  | nil => rfl
  | cons p es ih =>
      rw [List.flatMap_cons, List.map_append, List.sum_append, List.map_cons, List.sum_cons]
      omega

theorem ownWeight_pos (e : Expr) : 0 < e.ownWeight := by
  cases e <;> simp only [ownWeight] <;> omega

theorem weight_pos (e : Expr) : 0 < e.weight := by
  rw [weight_eq]
  exact Nat.add_pos_left e.ownWeight_pos _

theorem weight_lt_of_mem_inners {e p : Expr} (member : p ∈ e.inners) : p.weight < e.weight := by
  have part : p.weight ≤ (e.inners.map weight).sum :=
    List.le_sum_of_mem (List.mem_map_of_mem member)
  have own := e.ownWeight_pos
  rw [e.weight_eq]
  omega

theorem weight_le_of_mem_parts {e p : Expr} (member : p ∈ e.parts) : p.weight ≤ e.weight := by
  induction e using by_inners with
  | step e ih =>
      rw [parts_eq] at member
      rcases List.mem_cons.mp member with rfl | below
      · exact Nat.le_refl _
      · obtain ⟨q, direct, inside⟩ := List.mem_flatMap.mp below
        exact Nat.le_trans (ih q direct inside) (Nat.le_of_lt (weight_lt_of_mem_inners direct))

end Expr

namespace Table

variable {t : Table} {firm : List String}

theorem weight_eq (t : Table) : t.weight = 1 + (t.rules.map fun r => r.body.weight + 1).sum := by
  have fold (rules : List Rule) (n : Nat) :
      rules.foldl (fun n r => n + r.body.weight + 1) n =
        n + (rules.map fun r => r.body.weight + 1).sum := by
    induction rules generalizing n with
    | nil => rfl
    | cons r rules ih =>
        rw [List.foldl_cons, ih, List.map_cons, List.sum_cons]
        omega
  exact fold t.rules 1

theorem Part.weight_le {e : Expr} (part : t.Part e) : e.weight ≤ t.weight := by
  obtain ⟨r, member, inside⟩ := part
  have whole := Expr.weight_le_of_mem_parts inside
  have one : r.body.weight + 1 ≤ (t.rules.map fun r => r.body.weight + 1).sum :=
    List.le_sum_of_mem (List.mem_map_of_mem member)
  rw [t.weight_eq]
  omega

theorem Part.weight_lt {e p : Expr} (part : t.Part e) (member : p ∈ e.inners) :
    p.weight < t.weight :=
  Nat.lt_of_lt_of_le (Expr.weight_lt_of_mem_inners member) part.weight_le

def Enters (t : Table) (firm : List String) (a b : String) : Prop :=
  ∃ r, t.rule? a = some r ∧ b ∈ r.body.entered t firm (firm.contains a)

/-- A grammar in which tokens are taken by what they start, except that there may
be rules that leave them if those do not come back to themselves. -/
structure Steady (t : Table) (firm : List String) : Prop where
  parts : ∀ r ∈ t.rules, ∀ e ∈ r.body.parts, e.steady t firm = true
  takes : ∀ r ∈ t.rules, r.name ∈ firm → r.body.slips t firm false = false
  others : ∀ r ∈ t.rules, r.name ∉ firm → ¬Relation.TransGen (t.Enters firm) r.name r.name

namespace Steady

theorem rank_lt_or (rank : String → Nat)
    (order : ∀ {name r}, t.rule? name = some r →
      ∀ x ∈ r.body.leaders t.nullables, rank x < rank name)
    {a b : String} (way : Relation.TransGen (t.Enters firm) a b) :
    rank b < rank a ∨ ∃ r ∈ t.rules, r.name ∉ firm ∧
      Relation.ReflTransGen (t.Enters firm) a r.name ∧
      Relation.TransGen (t.Enters firm) r.name b := by
  have step {x y : String} (enters : t.Enters firm x y) :
      rank y < rank x ∨ ∃ r ∈ t.rules, r.name ∉ firm ∧ r.name = x := by
    obtain ⟨r, found, member⟩ := enters
    obtain ⟨rule, named⟩ := rule?_eq_some found
    by_cases holds : x ∈ firm
    · rw [Expr.entered, if_pos (List.contains_iff_mem.mpr holds)] at member
      exact Or.inl (order found y member)
    · exact Or.inr ⟨r, rule, named ▸ holds, named⟩
  induction way with
  | single enters =>
      refine (step enters).imp_right ?_
      rintro ⟨r, rule, other, rfl⟩
      exact ⟨r, rule, other, .refl, .single enters⟩
  | tail way enters ih =>
      rcases ih with below | ⟨r, rule, other, before, behind⟩
      · rcases step enters with lower | ⟨r, rule, other, rfl⟩
        · exact Or.inl (Nat.lt_trans lower below)
        · exact Or.inr ⟨r, rule, other, way.to_reflTransGen, .single enters⟩
      · exact Or.inr ⟨r, rule, other, before, behind.tail enters⟩

theorem acyclic (steady : t.Steady firm) (ranked : t.Ranked) (name : String) :
    ¬Relation.TransGen (t.Enters firm) name name := by
  intro cycle
  obtain ⟨rank, order⟩ := ranked.order
  rcases rank_lt_or rank order cycle with below | ⟨r, rule, other, before, behind⟩
  · exact Nat.lt_irrefl _ below
  · exact steady.others r rule other (behind.trans_left before)

end Steady

structure Depths (t : Table) (firm : List String) (depth : String → Nat) : Prop where
  body : ∀ {name r}, t.rule? name = some r → 2 * r.body.weight ≤ depth name
  inner : ∀ {name r}, t.rule? name = some r →
    ∀ x ∈ r.body.entered t firm (firm.contains name),
      2 * r.body.weight + depth x ≤ depth name
  limit : ∀ name, depth name ≤ 2 * t.weight

private theorem sum_filter_lt {rules : List Rule} {p q : Rule → Bool} (weigh : Rule → Nat)
    (imp : ∀ r, q r → p r) {r : Rule} (member : r ∈ rules) (more : p r) (less : ¬q r) :
    weigh r + ((rules.filter q).map weigh).sum ≤ ((rules.filter p).map weigh).sum := by
  induction rules with
  | nil => contradiction
  | cons first rules ih =>
      rcases List.mem_cons.mp member with rfl | later
      · have rest : ((rules.filter q).map weigh).Sublist ((rules.filter p).map weigh) :=
          (List.monotone_filter_right rules imp).map weigh
        rw [List.filter_cons_of_pos more, List.filter_cons_of_neg less, List.map_cons,
          List.sum_cons]
        exact Nat.add_le_add_left (rest.sum_le_sum fun _ _ => Nat.zero_le _) _
      · have rest := ih later
        by_cases here : q first = true
        · rw [List.filter_cons_of_pos here, List.filter_cons_of_pos (imp first here), List.map_cons,
            List.map_cons, List.sum_cons, List.sum_cons]
          omega
        · have longer : ((rules.filter p).map weigh).Sublist
              (((first :: rules).filter p).map weigh) :=
            ((List.sublist_cons_self first rules).filter p).map weigh
          rw [List.filter_cons_of_neg here]
          exact Nat.le_trans rest (longer.sum_le_sum fun _ _ => Nat.zero_le _)

open Classical in
noncomputable def reachable (t : Table) (firm : List String) (name : String) : List Rule :=
  t.rules.filter fun r => decide (Relation.ReflTransGen (t.Enters firm) name r.name)

noncomputable def reachableWeight (t : Table) (firm : List String) (name : String) : Nat :=
  ((t.reachable firm name).map fun r => r.body.weight).sum

open Classical in
theorem mem_reachable_self {name : String} {r : Rule} (found : t.rule? name = some r) :
    r ∈ t.reachable firm name := by
  obtain ⟨rule, rfl⟩ := rule?_eq_some found
  exact List.mem_filter.mpr ⟨rule, decide_eq_true .refl⟩

open Classical in
/-- Where there is no way back, what can be entered from a rule on weighs less
than the rule and all behind it. -/
theorem Steady.reachableWeight_lt (steady : t.Steady firm) (ranked : t.Ranked) {name x : String}
    {r : Rule} (found : t.rule? name = some r) (enters : t.Enters firm name x) :
    r.body.weight + t.reachableWeight firm x ≤ t.reachableWeight firm name := by
  obtain ⟨rule, named⟩ := rule?_eq_some found
  refine sum_filter_lt (fun r => r.body.weight) (fun q reached => ?_) rule
    (List.mem_filter.mp (mem_reachable_self found)).2 fun back => ?_
  · exact decide_eq_true ((of_decide_eq_true reached).head enters)
  · have cycle := Relation.TransGen.head' enters (of_decide_eq_true back)
    exact steady.acyclic ranked name (named ▸ cycle)

theorem reachableWeight_le (t : Table) (firm : List String) (name : String) :
    t.reachableWeight firm name ≤ t.weight := by
  have some : t.reachableWeight firm name ≤ (t.rules.map fun r => r.body.weight).sum :=
    (List.filter_sublist.map _).sum_le_sum fun _ _ => Nat.zero_le _
  have all : (t.rules.map fun r => r.body.weight).sum ≤
      (t.rules.map fun r => r.body.weight + 1).sum :=
    List.sum_le_sum fun r _ => Nat.le_succ r.body.weight
  rw [t.weight_eq]
  omega

theorem Steady.depths (steady : t.Steady firm) (ranked : t.Ranked) :
    ∃ depth, t.Depths firm depth := by
  refine ⟨fun name => 2 * t.reachableWeight firm name, ?_, ?_, ?_⟩
  · intro name r found
    exact Nat.mul_le_mul_left 2
      (List.le_sum_of_mem (List.mem_map_of_mem (mem_reachable_self found)))
  · intro name r found x member
    rw [← Nat.mul_add]
    exact Nat.mul_le_mul_left 2 (steady.reachableWeight_lt ranked found ⟨r, found, member⟩)
  · exact fun name => Nat.mul_le_mul_left 2 (t.reachableWeight_le firm name)

/-! ### What placeholders say -/

theorem describeSeq?_eq {es : List Expr} (required : t.nullable (.seq es) = false)
    (default : Option String) :
    ∃ e ∈ es, t.nullable e = false ∧ Parser.describeSeq? t es default = Parser.describe? t e := by
  induction es with
  | nil => contradiction
  | cons e es ih =>
      rw [Parser.describeSeq?]
      cases empty : t.nullable e with
      | false => exact ⟨e, List.mem_cons_self, empty, rfl⟩
      | true =>
          have rest : t.nullable (.seq es) = false := by
            rw [← required]
            show _ = (t.nullable e && _)
            rw [empty, Bool.true_and]
            rfl
          obtain ⟨p, member, own, same⟩ := ih rest
          exact ⟨p, List.mem_cons_of_mem e member, own, same⟩

theorem describe?_isSome (accepted : t.Accepted) (steady : t.Steady firm) {e : Expr}
    (part : t.Part e) (required : t.nullable e = false) : (Parser.describe? t e).isSome = true := by
  induction e using Expr.by_inners with
  | step e ih =>
      have inner (p : Expr) (member : p ∈ e.inners) := ih p member (part.inner member)
      have checks := accepted.checks part
      cases e with
      | tok | leaf | stmts => rfl
      | ref name =>
          rw [Parser.describe?, Option.isSome_map]
          exact accepted.resolved name part
      | seq es =>
          obtain ⟨p, member, own, same⟩ := describeSeq?_eq required (Parser.describeFirst? t es)
          rw [Parser.describe?, same]
          exact inner p member own
      | choice alts =>
          obtain ⟨r, rule, inside⟩ := part
          have some := steady.parts r rule _ inside
          cases alts with
          | nil => contradiction
          | cons alt rest => exact inner alt List.mem_cons_self (checks.1 alt List.mem_cons_self)
      | ordered alts =>
          cases alts with
          | nil => contradiction
          | cons alt rest => exact inner alt List.mem_cons_self (Bool.or_eq_false_iff.mp required).1
      | opt | sepBy => contradiction
      | rep body | immediate body | sameLine body | binary _ body =>
          exact inner body (List.mem_singleton_self body) checks
      | field _ body | unary _ _ body => exact inner body (List.mem_singleton_self body) required
      | suffixed head => exact inner head List.mem_cons_self required

end Table

theorem Mq.steady : mq.Steady (mq.rules.map Rule.name) where
  parts := by decide +kernel
  takes := by decide +kernel
  others r rule other := absurd (List.mem_map_of_mem rule) other

end MqTree
