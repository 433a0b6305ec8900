import Mathlib.Data.List.Nodup
import MqTree.Proofs.Grammar.Nullable
import MqTree.Proofs.Grammar.Search

namespace MqTree

namespace Grammar

theorem isPrefix_foldl_addSymbol (syms init : List String) : init <+: syms.foldl addSymbol init := by
  induction syms generalizing init with
  | nil => exact List.prefix_refl init
  | cons sym syms ih =>
      rw [List.foldl_cons]
      refine List.IsPrefix.trans ?_ (ih _)
      unfold addSymbol
      split
      · exact List.prefix_refl init
      · exact List.prefix_append init [sym]

theorem mem_foldl_addSymbol {sym : String} {syms : List String} (init : List String)
    (member : sym ∈ syms) : sym ∈ syms.foldl addSymbol init := by
  induction syms generalizing init with
  | nil => contradiction
  | cons other syms ih =>
      rw [List.foldl_cons]
      rcases List.mem_cons.mp member with rfl | later
      · apply (isPrefix_foldl_addSymbol syms _).subset
        unfold addSymbol
        split
        next old => simpa using old
        next => exact List.mem_append_right init (List.mem_singleton_self sym)
      · exact ih _ later

theorem names_nodup_of_declared {seen : List String} {rules : List Rule}
    (none : declarationProblems seen rules = []) :
    (∀ r ∈ rules, r.name ∉ seen) ∧ (rules.map Rule.name).Nodup := by
  induction rules generalizing seen with
  | nil => exact ⟨fun r member => absurd member List.not_mem_nil, List.nodup_nil⟩
  | cons r rules ih =>
      rw [declarationProblems] at none
      split at none
      · contradiction
      next fresh =>
        split at none
        · contradiction
        · obtain ⟨apart, distinct⟩ := ih none
          refine ⟨List.forall_mem_cons.mpr ⟨by simpa using fresh, fun q member old => ?_⟩, ?_⟩
          · exact apart q member (List.mem_cons_of_mem r.name old)
          · refine List.nodup_cons.mpr ⟨fun again => ?_, distinct⟩
            obtain ⟨q, member, named⟩ := List.mem_map.mp again
            exact apart q member (named ▸ List.mem_cons_self)

end Grammar

namespace Table

variable {t : Table}

/-- What the checks demand of one expression. -/
def Checks (t : Table) : Expr → Prop
  | .ordered alts => 2 ≤ alts.length
  | .choice alts =>
      (∀ alt ∈ alts, t.nullable alt = false) ∧
        alts.Pairwise fun x y => t.first x &&& t.first y = TermSet.empty
  | .opt body | .rep body _ | .sepBy body _ _ | .immediate body | .sameLine body
  | .binary _ body _ => t.nullable body = false
  | .stmts _ item closers =>
      t.nullable item = false ∧ t.terminals closers &&& t.first item = TermSet.empty
  | .suffixed _ _ suffixes =>
      (∀ x ∈ suffixes, t.nullable x.tail = false) ∧
        (suffixes.map Suffix.tail).Pairwise fun x y => t.first x &&& t.first y = TermSet.empty
  | .tok _ _ | .leaf _ _ | .ref _ | .seq _ | .field _ _ | .unary _ _ _ => True

theorem emptinessProblems_eq_nil {rule what : String} {e : Expr} :
    t.emptinessProblems rule what e = [] ↔ t.nullable e = false := by
  unfold emptinessProblems
  split <;> simp_all

theorem disjointnessProblems_eq_nil {rule what : String} {alts : List Expr}
    (none : t.disjointnessProblems rule what alts = []) :
    (∀ alt ∈ alts, t.nullable alt = false) ∧
      alts.Pairwise fun x y => t.first x &&& t.first y = TermSet.empty := by
  induction alts with
  | nil => exact ⟨fun alt member => absurd member List.not_mem_nil, List.Pairwise.nil⟩
  | cons alt rest ih =>
      rw [disjointnessProblems, List.append_eq_nil_iff, List.append_eq_nil_iff,
        emptinessProblems_eq_nil, List.filterMap_eq_nil_iff] at none
      obtain ⟨⟨required, apart⟩, later⟩ := none
      obtain ⟨others, distinct⟩ := ih later
      refine ⟨List.forall_mem_cons.mpr ⟨required, others⟩, List.pairwise_cons.mpr ⟨?_, distinct⟩⟩
      intro other member
      by_contra overlap
      exact absurd (apart other member) (by simp [TermSet.isEmpty, overlap])

theorem checks_of_problemsOf {rule : String} {e : Expr} (none : t.problemsOf rule e = []) :
    t.Checks e := by
  cases e with
  | ordered alts =>
      simp only [problemsOf] at none
      split at none
      · contradiction
      next enough => exact Nat.le_of_not_lt enough
  | choice alts => exact disjointnessProblems_eq_nil none
  | suffixed head many suffixes =>
      obtain ⟨required, distinct⟩ := disjointnessProblems_eq_nil none
      exact ⟨fun x member => required x.tail (List.mem_map_of_mem member), distinct⟩
  | stmts field item closers =>
      rw [problemsOf, List.append_eq_nil_iff, emptinessProblems_eq_nil] at none
      refine ⟨none.1, ?_⟩
      by_contra overlap
      exact absurd none.2 (by simp [TermSet.isEmpty, overlap])
  | opt | rep | sepBy | immediate | sameLine | binary => exact emptinessProblems_eq_nil.mp none
  | tok | leaf | ref | seq | field | unary => trivial

structure Accepted (t : Table) : Prop where
  resolved : t.Resolved
  ranked : t.Ranked
  closed : Grammar.Closed t.rules t.nullables
  supported : ∀ {name r}, t.rule? name = some r → t.nullable (.ref name) = true →
    t.nullable r.body = true
  checks : ∀ {e}, t.Part e → t.Checks e
  start : (t.rule? t.start).isSome = true
  end_first : t.termId? endSymbol = some 0
  known : ∀ {e sym}, t.Part e → sym ∈ e.terminals → sym ∈ t.symbols
  few : t.symbols.length ≤ TermSet.limit

theorem build_eq_ok {g : Grammar} (built : build g = .ok t) :
    Grammar.declarationProblems [] g.rules = [] ∧ g.startProblems = [] ∧
      g.referenceProblems = [] ∧ g.symbolProblems = [] ∧ draft g = (t, []) ∧ t.problems = [] := by
  unfold build at built
  split at built
  · contradiction
  next declared =>
    split at built
    · contradiction
    next references =>
      generalize made : draft g = drafted at built
      obtain ⟨table, cycles⟩ := drafted
      simp only at built
      split at built
      · contradiction
      next sound =>
        obtain rfl := Except.ok.inj built
        rw [List.append_eq_nil_iff] at declared references sound
        exact ⟨declared.1, declared.2, references.1, references.2,
          by rw [List.map_eq_nil_iff.mp sound.1], sound.2⟩

theorem rules_of_build {g : Grammar} (built : build g = .ok t) : t.rules = g.rules := by
  obtain rfl : (draft g).1 = t := congrArg Prod.fst (build_eq_ok built).2.2.2.2.1
  rfl

theorem rule?_of_declared (declared : Grammar.declarationProblems [] t.rules = []) :
    ∀ r ∈ t.rules, t.rule? r.name = some r := by
  intro r member
  have distinct := (Grammar.names_nodup_of_declared declared).2
  have some : (t.rule? r.name).isSome = true := by
    rw [rule?, List.find?_isSome]
    exact ⟨r, member, beq_self_eq_true r.name⟩
  obtain ⟨q, found⟩ := Option.isSome_iff_exists.mp some
  obtain ⟨inside, named⟩ := rule?_eq_some found
  rwa [List.inj_on_of_nodup_map distinct inside member named] at found

theorem rule?_of_build {g : Grammar} (built : build g = .ok t) :
    ∀ r ∈ g.rules, t.rule? r.name = some r := by
  have same := rules_of_build built
  rw [← same]
  exact rule?_of_declared (same ▸ (build_eq_ok built).1)

theorem build_of_sound {g : Grammar}
    (declared : Grammar.declarationProblems [] g.rules ++ g.startProblems = [])
    (references : g.referenceProblems ++ g.symbolProblems = []) (acyclic : (draft g).2 = [])
    (sound : (draft g).1.problems = []) : build g = .ok (draft g).1 := by
  have whole : draft g = ((draft g).1, []) := by rw [← acyclic]
  unfold build
  rw [declared, references, whole]
  simp only [List.map_nil, List.nil_append, sound]

theorem resolved_of_references {g : Grammar} (none : g.referenceProblems = [])
    (same : t.rules = g.rules) : t.Resolved := by
  rintro name ⟨r, member, inside⟩
  rw [Grammar.referenceProblems, List.flatMap_eq_nil_iff] at none
  have defined := List.filterMap_eq_nil_iff.mp (none r (same ▸ member)) (.ref name) inside
  rw [rule?, List.find?_isSome, ← List.any_eq_true, same]
  by_contra missing
  simp [missing] at defined

theorem accepted_of_build {g : Grammar} (built : build g = .ok t) : t.Accepted := by
  obtain ⟨declared, started, references, small, drafted, sound⟩ := build_eq_ok built
  obtain ⟨rfl, cycles⟩ := Prod.mk.inj drafted
  refine
    { resolved := resolved_of_references references rfl
      ranked := ranked_of_search (resolved_of_references references rfl) cycles
      closed := Grammar.nullableRules_closed g.rules
      supported := ?_
      checks := ?_
      start := ?_
      end_first := ?_
      known := ?_
      few := ?_ }
  · intro name r found empty
    rw [nullable, Expr.nullable, List.contains_iff_mem] at empty
    obtain ⟨q, inside, rfl, own⟩ := Grammar.nullableRules_supported g.rules name empty
    rw [rule?_of_build built q inside] at found
    rwa [Option.some.inj found] at own
  · rintro e ⟨r, member, inside⟩
    rw [problems, List.flatMap_eq_nil_iff] at sound
    exact checks_of_problemsOf (List.flatMap_eq_nil_iff.mp (sound r member) e inside)
  · rw [rule?, List.find?_isSome, ← List.any_eq_true]
    by_contra missing
    exact absurd started (by rw [Grammar.startProblems, if_neg missing]; exact List.cons_ne_nil _ _)
  · obtain ⟨rest, made⟩ := Grammar.isPrefix_foldl_addSymbol
      (g.rules.flatMap fun r => r.body.parts.flatMap Expr.terminals)
      [endSymbol, errorSymbol, commentSymbol]
    show g.symbols.idxOf? endSymbol = some 0
    rw [Grammar.symbols, ← made]
    rfl
  · rintro e sym ⟨r, member, inside⟩ mentioned
    apply Grammar.mem_foldl_addSymbol
    exact List.mem_flatMap.mpr ⟨r, member, List.mem_flatMap.mpr ⟨e, inside, mentioned⟩⟩
  · by_contra many
    exact absurd small (by
      rw [Grammar.symbolProblems, if_pos (Nat.lt_of_not_le many)]
      exact List.cons_ne_nil _ _)

end Table

end MqTree
