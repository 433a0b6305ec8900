import MqTree.Grammar.Mq
import MqTree.Proofs.Grammar.Accepted
import MqTree.Proofs.Grammar.Language

namespace MqTree

/-! The terminals that sequences of an expression start with are those that its
set holds, and so one terminal tells alternatives apart. -/

namespace Expr

/-- Whether a repetition asks for a number of copies that there can be. -/
def counted : Expr → Bool
  | .rep _ min => 0 ≤ min
  | _ => true

/-- Whether suffixes come behind something. -/
def headed (known : List String) : Expr → Bool
  | .suffixed head _ suffixes => suffixes.isEmpty || !head.nullable known
  | _ => true

theorem not_nullable_of_headed {known : List String} {head : Expr} {many : Bool}
    {suffixes : List (Suffix Expr)} {x : Suffix Expr}
    (headed : (suffixed head many suffixes).headed known = true) (member : x ∈ suffixes) :
    head.nullable known = false := by
  have some : suffixes.isEmpty = false := by
    rw [List.isEmpty_eq_false_iff]
    exact List.ne_nil_of_mem member
  simpa [Expr.headed, some] using headed

end Expr

namespace Table

variable {t : Table} {α : Type} {R : Reading α} {prev : Option α} {e : Expr} {w : List α}

theorem Derives.nullable (closed : Grammar.Closed t.rules t.nullables)
    (counted : ∀ e, t.Part e → e.counted = true) (derives : t.Derives R prev e w) (none : w = [])
    (here : ∀ p ∈ e.parts, p.counted = true) : t.nullable e = true := by
  induction derives with
  | tok | leaf | signed | operator | trailing => simp at none
  | ref found inner ih =>
      have member := (rule?_eq_some found).1
      have empty := ih none fun p inside => counted p ⟨_, member, inside⟩
      have marked := closed _ member empty
      rw [(rule?_eq_some found).2] at marked
      exact List.contains_iff_mem.mpr marked
  | nil => rfl
  | cons head rest ihHead ihRest =>
      obtain ⟨first, second⟩ := List.append_eq_nil_iff.mp none
      rw [Expr.parts_eq, Expr.inners, List.flatMap_cons, List.forall_mem_cons,
        List.forall_mem_append] at here
      have later := ihRest second (by
        rw [Expr.parts_eq, List.forall_mem_cons]
        exact ⟨rfl, here.2.2⟩)
      show (_ && _) = true
      rw [Bool.and_eq_true]
      exact ⟨ihHead first here.2.1, later⟩
  | choice member inner ih | ordered member inner ih =>
      have empty := ih none fun p inside =>
        here p (Expr.parts_subset member inside)
      rw [Table.nullable, Expr.nullable, Expr.anyNullable_eq, List.any_eq_true]
      exact ⟨_, member, empty⟩
  | absent | present | noElement | elements | noStatement | statement => rfl
  | @enough prev body min few =>
      have least : 0 ≤ min := of_decide_eq_true (here _ (Expr.mem_parts_self _))
      rw [Table.nullable, Expr.nullable, Int.le_antisymm few least]
      rfl
  | copy one more ihOne ihMore =>
      have empty := ihOne (List.append_eq_nil_iff.mp none).1 fun p inside =>
        here p (Expr.parts_subset (List.mem_singleton_self _) inside)
      rw [Table.nullable, Expr.nullable]
      exact Bool.or_eq_true_iff.mpr (Or.inr empty)
  | field inner ih | immediate inner _ ih | sameLine inner _ ih | operand inner ih
  | unsigned inner ih =>
      exact ih none fun p inside =>
        here p (Expr.parts_subset (List.mem_singleton_self _) inside)
  | head inner ih =>
      exact ih none fun p inside =>
        here p (Expr.parts_subset List.mem_cons_self inside)
  | suffix front member tail ihFront =>
      exact ihFront (List.append_eq_nil_iff.mp none).1 fun p inside =>
        here p (Expr.parts_subset List.mem_cons_self inside)
  | suffixes again front member tail ihFront =>
      exact ihFront (List.append_eq_nil_iff.mp none).1 here

def Starts (t : Table) (set : TermSet) (sym : String) : Prop :=
  ∃ id, t.termId? sym = some id ∧ set.has id = true

theorem Starts.left {set : TermSet} {sym : String} (starts : t.Starts set sym) (other : TermSet) :
    t.Starts (set ||| other) sym := by
  obtain ⟨id, found, has⟩ := starts
  exact ⟨id, found, TermSet.has_or.mpr (Or.inl has)⟩

theorem Starts.right {set : TermSet} {sym : String} (starts : t.Starts set sym) (other : TermSet) :
    t.Starts (other ||| set) sym := by
  obtain ⟨id, found, has⟩ := starts
  exact ⟨id, found, TermSet.has_or.mpr (Or.inr has)⟩

theorem starts_terminal (few : t.symbols.length ≤ TermSet.limit) {sym : String}
    (known : sym ∈ t.symbols) : t.Starts (t.terminal sym) sym := by
  obtain ⟨id, found⟩ := Option.isSome_iff_exists.mp (List.isSome_idxOf?.mpr known)
  have bound : id < TermSet.limit :=
    Nat.lt_of_lt_of_le (List.findIdx?_eq_some_iff_getElem.mp found).1 few
  refine ⟨id, found, ?_⟩
  rw [terminal, termId?, found, Option.map_some, Option.getD_some, TermSet.has, TermSet.single]
  have small : id < 128 := bound
  simpa using small

theorem starts_foldr {ops : List String} {base : TermSet} {sym : String}
    (starts : t.Starts base sym ∨ ∃ op ∈ ops, t.Starts (t.terminal op) sym) :
    t.Starts (ops.foldr (fun op set => t.terminal op ||| set) base) sym := by
  induction ops with
  | nil =>
      rcases starts with base | ⟨op, none, _⟩
      · exact base
      · contradiction
  | cons op ops ih =>
      rw [List.foldr_cons]
      rcases starts with base | ⟨other, member, starts⟩
      · exact (ih (Or.inl base)).right _
      · rcases List.mem_cons.mp member with rfl | later
        · exact starts.left _
        · exact (ih (Or.inr ⟨other, later, starts⟩)).right _

theorem starts_alts {alts : List Expr} {alt : Expr} {sym : String} (member : alt ∈ alts)
    (starts : t.Starts (t.first alt) sym) : t.Starts (t.firstOfAltsBy t.ruleFirst alts) sym := by
  induction alts with
  | nil => contradiction
  | cons other alts ih =>
      show t.Starts (t.first other ||| t.firstOfAltsBy t.ruleFirst alts) sym
      rcases List.mem_cons.mp member with rfl | later
      · exact starts.left _
      · exact (ih later).right _

structure Regular (t : Table) (e : Expr) : Prop where
  checks : t.Checks e
  counted : e.counted = true
  headed : e.headed t.nullables = true
  known : ∀ sym ∈ e.terminals, sym ∈ t.symbols

theorem Regular.seq (t : Table) (es : List Expr) : t.Regular (.seq es) :=
  ⟨trivial, rfl, rfl, fun _ member => absurd member List.not_mem_nil⟩

structure Complete (t : Table) : Prop extends t.Accepted where
  regular : ∀ {e}, t.Part e → t.Regular e

/-- Where an expression cannot be empty, the first thing is one of its own. -/
theorem Complete.head_mem (complete : t.Complete) (inner : t.Derives R prev e u)
    (parts : ∀ p ∈ e.parts, t.Regular p) (full : t.nullable e = false) (split : u ++ v = a :: w) :
    ∃ rest, u = a :: rest := by
  cases u with
  | nil =>
      have empty := inner.nullable complete.closed (fun e part => (complete.regular part).counted)
        rfl fun p inside => (parts p inside).counted
      rw [empty] at full
      contradiction
  | cons b u =>
      obtain ⟨rfl, _⟩ := List.cons.inj split
      exact ⟨u, rfl⟩

theorem Derives.starts (complete : t.Complete) (derives : t.Derives R prev e w)
    (here : ∀ p ∈ e.parts, t.Regular p) (split : w = a :: rest) :
    t.Starts (t.first e) (R.symbol a) := by
  have below {e p : Expr} (here : ∀ p ∈ e.parts, t.Regular p) (member : p ∈ e.inners) :
      ∀ q ∈ p.parts, t.Regular q := fun q inside => here q (Expr.parts_subset member inside)
  induction derives generalizing rest with
  | nil | absent | enough | noElement | noStatement => contradiction
  | tok symbol word | leaf symbol =>
      obtain ⟨rfl, _⟩ := List.cons.inj split
      rw [symbol]
      exact starts_terminal complete.few
        ((here _ (Expr.mem_parts_self _)).known _ (List.mem_singleton_self _))
  | ref found inner ih =>
      have member := (rule?_eq_some found).1
      show t.Starts (t.ruleFirst _) _
      rw [complete.ranked.first found]
      exact ih (fun p inside => complete.regular ⟨_, member, inside⟩) split
  | @cons prev e u es v head tail ihHead ihTail =>
      have inHead := below here (p := e) List.mem_cons_self
      show t.Starts (t.firstOfSeqBy t.ruleFirst (e :: es)) _
      rw [firstOfSeqBy_cons]
      by_cases empty : e.nullable t.nullables = true
      · rw [if_pos empty]
        cases u with
        | nil =>
            refine (ihTail ?_ split).right _
            rw [Expr.parts_eq, List.forall_mem_cons]
            refine ⟨.seq t es, fun q inside => ?_⟩
            obtain ⟨p, member, inner⟩ := List.mem_flatMap.mp inside
            exact below here (p := p) (List.mem_cons_of_mem e member) q inner
        | cons b u =>
            obtain ⟨rfl, _⟩ := List.cons.inj split
            exact (ihHead inHead rfl).left _
      · rw [if_neg empty]
        obtain ⟨_, own⟩ := complete.head_mem head inHead (Bool.eq_false_iff.mpr empty) split
        exact ihHead inHead own
  | choice member inner ih | ordered member inner ih =>
      exact starts_alts member (ih (below here member) split)
  | present inner ih | field inner ih | immediate inner _ ih | sameLine inner _ ih
  | operand inner ih => exact ih (below here (List.mem_singleton_self _)) split
  | head inner ih => exact ih (below here List.mem_cons_self) split
  -- What comes first in a loop is required to consume.
  | copy one more ih | elements one more ih | trailing one more symbol ih =>
      have inside := below here (List.mem_singleton_self _)
      have full := (here _ (Expr.mem_parts_self _)).checks
      obtain ⟨_, own⟩ := complete.head_mem one inside full split
      exact ih inside own
  | statement one more ih =>
      have inside := below here (List.mem_singleton_self _)
      have full := (here _ (Expr.mem_parts_self _)).checks.1
      obtain ⟨_, own⟩ := complete.head_mem one inside full split
      exact ih inside own
  | suffix front member tail ih =>
      have inside := below here List.mem_cons_self
      have full := Expr.not_nullable_of_headed (here _ (Expr.mem_parts_self _)).headed member
      obtain ⟨_, own⟩ := complete.head_mem front inside full split
      exact ih inside own
  | suffixes again front member tail ih =>
      have full := Expr.not_nullable_of_headed (here _ (Expr.mem_parts_self _)).headed member
      obtain ⟨_, own⟩ := complete.head_mem front here full split
      exact ih here own
  | operator left symbol right ih =>
      have full := (here _ (Expr.mem_parts_self _)).checks
      obtain ⟨_, own⟩ := complete.head_mem left here full split
      exact ih here own
  | unsigned inner ih =>
      exact starts_foldr (Or.inl (ih (below here (List.mem_singleton_self _)) split))
  | signed symbol inner ih =>
      obtain ⟨rfl, _⟩ := List.cons.inj split
      have known := (here _ (Expr.mem_parts_self _)).known _ symbol
      exact starts_foldr (Or.inr ⟨_, symbol, starts_terminal complete.few known⟩)

theorem complete_of_build {g : Grammar} (built : build g = .ok t)
    (usual : ∀ r ∈ g.rules, ∀ e ∈ r.body.parts, e.counted = true ∧ e.headed t.nullables = true) :
    t.Complete := by
  have accepted := accepted_of_build built
  refine ⟨accepted, fun {e} part => ?_⟩
  obtain ⟨r, member, inside⟩ := part
  obtain ⟨counted, headed⟩ := usual r (rules_of_build built ▸ member) e inside
  exact ⟨accepted.checks ⟨r, member, inside⟩, counted, headed,
    fun sym => accepted.known ⟨r, member, inside⟩⟩

theorem Complete.starts (complete : t.Complete) (part : t.Part e)
    (derives : t.Derives R prev e (a :: w)) : t.Starts (t.first e) (R.symbol a) := by
  obtain ⟨r, member, inside⟩ := part
  exact derives.starts complete (fun p below => complete.regular
    ⟨r, member, Expr.mem_parts_trans below inside⟩) rfl

theorem Starts.disjoint {x y : TermSet} {sym : String} (inX : t.Starts x sym)
    (inY : t.Starts y sym) (apart : x &&& y = TermSet.empty) : False := by
  obtain ⟨id, found, has⟩ := inX
  obtain ⟨other, found', has'⟩ := inY
  obtain rfl := Option.some.inj (found.symm.trans found')
  rw [TermSet.has_eq_false_of_apart apart has] at has'
  contradiction

def Apart (t : Table) (R : Reading α) (x y : Expr) : Prop :=
  ∀ ⦃prev prev' a b u v⦄, t.Derives R prev x (a :: u) → t.Derives R prev' y (b :: v) →
    R.symbol a ≠ R.symbol b

theorem Complete.apart (complete : t.Complete) {alts : List Expr} (parts : ∀ x ∈ alts, t.Part x)
    (disjoint : alts.Pairwise fun x y => t.first x &&& t.first y = TermSet.empty) :
    alts.Pairwise (t.Apart R) := by
  refine disjoint.imp_of_mem ?_
  intro x y left right disjoint prev prev' a b u v first second same
  have starts := complete.starts (parts x left) first
  rw [same] at starts
  exact starts.disjoint (complete.starts (parts y right) second) disjoint

/-- The set of an expression holds each terminal that starts a sequence of it,
and so one terminal tells alternatives and suffixes apart. -/
theorem first_complete {g : Grammar} (built : build g = .ok t)
    (usual : ∀ r ∈ g.rules, ∀ e ∈ r.body.parts, e.counted = true ∧ e.headed t.nullables = true) :
    (∀ e prev a w, t.Part e → t.Derives .terminals prev e (a :: w) → t.Starts (t.first e) a) ∧
      (∀ alts, t.Part (.choice alts) → alts.Pairwise (t.Apart .terminals)) ∧
      (∀ head many suffixes, t.Part (.suffixed head many suffixes) →
        (suffixes.map Suffix.tail).Pairwise (t.Apart .terminals)) := by
  have complete := complete_of_build built usual
  refine ⟨fun e prev a w part derives => complete.starts part derives, ?_, ?_⟩
  · intro alts part
    exact complete.apart (fun x member => part.inner member) (complete.checks part).2
  · intro head many suffixes part
    exact complete.apart (fun x member => part.inner (List.mem_cons_of_mem head member))
      (complete.checks part).2

theorem first_complete_mq : mq.Starts (mq.first (.ref "_statement")) "break" := by
  refine (first_complete Mq.build_eq (by decide +kernel)).1 (.ref "_statement") none "break" []
    ⟨_, List.mem_cons_self, List.Mem.tail _ (List.Mem.head _)⟩ ?_
  exact .ref (r := Mq.statements[1]) rfl
    (.choice (List.mem_of_getElem? (i := 10) rfl) (.leaf rfl))

/-- A sign that can be left out, and what can follow it. -/
def optionalHead : Expr := .suffixed (.opt (.tok "+" [])) false [⟨"signed", "", .tok "-" []⟩]

def gapped : Grammar := ⟨"gapped", "start", [⟨"start", "", false, "", optionalHead⟩]⟩

theorem gapped_misses : ∃ t, build gapped = .ok t ∧ t.Part optionalHead ∧
    t.Derives .terminals none optionalHead ["-"] ∧ ¬t.Starts (t.first optionalHead) "-" := by
  refine ⟨(draft gapped).1, build_of_sound (by decide +kernel) (by decide +kernel)
    (by decide +kernel) (by decide +kernel), ?_, ?_, ?_⟩
  · exact ⟨_, List.mem_cons_self, Expr.mem_parts_self _⟩
  · exact .suffix (u := []) .absent List.mem_cons_self (.tok rfl (Or.inl rfl))
  · rintro ⟨id, found, has⟩
    have last : (draft gapped).1.termId? "-" = some 4 := by decide +kernel
    obtain rfl := Option.some.inj (last.symm.trans found)
    exact absurd has (by decide +kernel)

end Table

end MqTree
