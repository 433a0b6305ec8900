import Mathlib.Logic.Relation
import MqTree.Grammar.Mq
import MqTree.Proofs.Grammar.Noted

namespace MqTree

/-! A grammar is left recursive if a rule can start itself, be it by way of
others. The search for first terminals reports exactly this, and where it has
nothing to report, the sets that it leaves solve the equations for them. -/

namespace Grammar

/-- Whether a rule can start another: a reference to that is found in its body by
going down through what can come first. -/
def LeadsTo (rules : List Rule) (known : List String) (name other : String) : Prop :=
  ∃ r ∈ rules, r.name = name ∧ other ∈ r.body.leaders known

def Loops (rules : List Rule) (known : List String) (name : String) : Prop :=
  Relation.TransGen (LeadsTo rules known) name name

end Grammar

namespace Table

variable {t : Table}

section

variable {P : Search → Prop} {rule : String → StateM Search TermSet}

mutual

theorem firstM_keeps (e : Expr)
    (keeps : ∀ name ∈ e.leaders t.nullables, ∀ s, P s → P (rule name s).2) {s : Search}
    (holds : P s) : P (e.firstM t.terminal t.nullables rule s).2 := by
  match e with
  | .tok .. | .leaf .. => exact holds
  | .ref name => exact keeps name (by rw [Expr.leaders]; exact List.mem_singleton_self name) s holds
  | .seq es => exact firstOfSeq_keeps es (by rwa [Expr.leaders] at keeps) holds
  | .choice es | .ordered es => exact firstOfAlts_keeps es (by rwa [Expr.leaders] at keeps) holds
  | .opt body | .rep body _ | .sepBy body _ _ | .field _ body | .immediate body | .sameLine body
  | .stmts _ body _ | .suffixed body _ _ | .binary _ body _ | .unary _ _ body =>
      exact firstM_keeps body (by rwa [Expr.leaders] at keeps) holds

theorem firstOfSeq_keeps (es : List Expr)
    (keeps : ∀ name ∈ Expr.leadersOfSeq t.nullables es, ∀ s, P s → P (rule name s).2)
    {s : Search} (holds : P s) : P (Expr.firstOfSeq t.terminal t.nullables rule es s).2 := by
  match es with
  | [] => exact holds
  | e :: es =>
      rw [Expr.leadersOfSeq, List.forall_mem_append] at keeps
      have first := firstM_keeps e keeps.1 holds
      rw [Expr.firstOfSeq]
      cases empty : e.nullable t.nullables with
      | false => exact first
      | true =>
          rw [empty, if_pos rfl] at keeps
          exact firstOfSeq_keeps es keeps.2 first

theorem firstOfAlts_keeps (es : List Expr)
    (keeps : ∀ name ∈ Expr.leadersOfAlts t.nullables es, ∀ s, P s → P (rule name s).2)
    {s : Search} (holds : P s) : P (Expr.firstOfAlts t.terminal t.nullables rule es s).2 := by
  match es with
  | [] => exact holds
  | e :: es =>
      rw [Expr.leadersOfAlts, List.forall_mem_append] at keeps
      exact firstOfAlts_keeps es keeps.2 (firstM_keeps e keeps.1 holds)

end

end

theorem searchRule_of_undefined {n : Nat} {path : List String} {name : String} {s : Search}
    (fresh : s.firsts.lookup name = none) (rule : t.rule? name = none) :
    t.searchRule (n + 1) path name s = (TermSet.empty, s) := by
  simp only [searchRule, bind, StateT.bind, get, getThe, MonadStateOf.get, StateT.get, pure, fresh,
    rule]
  rfl

def Reports (t : Table) (s : Search) : Prop :=
  ∀ name ∈ s.cycles, Grammar.Loops t.rules t.nullables name

/-- Where every rule on the path leads to the one that is searched for, a rule
that is met again can start itself. -/
theorem searchRule_reports {n : Nat} {path : List String} {name : String}
    (under : ∀ x ∈ path, Relation.TransGen (Grammar.LeadsTo t.rules t.nullables) x name)
    {s : Search} (reports : t.Reports s) : t.Reports (t.searchRule n path name s).2 := by
  induction n generalizing path name s with
  | zero => exact reports
  | succ n ih =>
      cases done : s.firsts.lookup name with
      | some set =>
          rw [searchRule_of_done done]
          exact reports
      | none =>
          cases rule : t.rule? name with
          | none =>
              rw [searchRule_of_undefined done rule]
              exact reports
          | some r =>
              by_cases cycle : name ∈ path
              · rw [searchRule_of_cycle done rule cycle]
                exact List.forall_mem_append.mpr
                  ⟨reports, List.forall_mem_singleton.mpr (under name cycle)⟩
              · rw [searchRule_of_new done rule cycle]
                refine firstM_keeps (P := t.Reports) r.body (fun other leads s reports => ?_) reports
                obtain ⟨member, named⟩ := rule?_eq_some rule
                have step : Grammar.LeadsTo t.rules t.nullables name other :=
                  ⟨r, member, named, leads⟩
                refine ih (List.forall_mem_cons.mpr ⟨.single step, fun x inside => ?_⟩) reports
                exact (under x inside).tail step

theorem search_reports (t : Table) : t.Reports t.search := by
  apply List.foldlRecOn t.rules (motive := t.Reports)
  · exact fun name none => absurd none List.not_mem_nil
  · intro s reports r _
    exact searchRule_reports (fun x none => absurd none List.not_mem_nil) reports

theorem loops_of_reported {g : Grammar} {name : String} (reported : name ∈ (draft g).2) :
    Grammar.Loops g.rules (Grammar.nullableRules g.rules) name :=
  search_reports ⟨g.name, g.start, g.rules, g.symbols, Grammar.nullableRules g.rules, []⟩ name
    reported

theorem Ranked.not_loops (ranked : t.Ranked) (named : ∀ r ∈ t.rules, t.rule? r.name = some r)
    (name : String) : ¬Grammar.Loops t.rules t.nullables name := by
  obtain ⟨rank, order⟩ := ranked.order
  have falls {x y : String} (step : Grammar.LeadsTo t.rules t.nullables x y) :
      rank y < rank x := by
    obtain ⟨r, member, rfl, leads⟩ := step
    exact order (named r member) y leads
  have falls' {x y : String}
      (way : Relation.TransGen (Grammar.LeadsTo t.rules t.nullables) x y) : rank y < rank x := by
    induction way with
    | single step => exact falls step
    | tail _ step ih => exact Nat.lt_trans (falls step) ih
  exact fun loop => Nat.lt_irrefl _ (falls' loop)

theorem exists_reported {g : Grammar} {name : String}
    (declared : Grammar.declarationProblems [] g.rules = []) (references : g.referenceProblems = [])
    (loop : Grammar.Loops g.rules (Grammar.nullableRules g.rules) name) : (draft g).2 ≠ [] := by
  intro none
  have ranked : (draft g).1.Ranked :=
    ranked_of_search (resolved_of_references references rfl) none
  exact ranked.not_loops (rule?_of_declared declared) name loop

theorem emptinessProblems_other {rule what : String} {e : Expr} :
    ∀ p ∈ t.emptinessProblems rule what e, p.flaw ≠ .leftRecursion := by
  intro p member
  unfold emptinessProblems at member
  split at member
  · rw [List.mem_singleton.mp member]
    exact Flaw.noConfusion
  · contradiction

theorem disjointnessProblems_other {rule what : String} {alts : List Expr} :
    ∀ p ∈ t.disjointnessProblems rule what alts, p.flaw ≠ .leftRecursion := by
  induction alts with
  | nil => exact fun p none => absurd none List.not_mem_nil
  | cons alt rest ih =>
      rw [disjointnessProblems, List.forall_mem_append, List.forall_mem_append]
      refine ⟨⟨emptinessProblems_other, fun p member => ?_⟩, ih⟩
      obtain ⟨other, _, found⟩ := List.mem_filterMap.mp member
      dsimp only at found
      split at found
      · contradiction
      · rw [← Option.some.inj found]
        exact Flaw.noConfusion

theorem problemsOf_other {rule : String} {e : Expr} :
    ∀ p ∈ t.problemsOf rule e, p.flaw ≠ .leftRecursion := by
  cases e with
  | ordered alts =>
      intro p member
      simp only [problemsOf] at member
      split at member
      · rw [List.mem_singleton.mp member]
        exact Flaw.noConfusion
      · contradiction
  | stmts field item closers =>
      rw [problemsOf, List.forall_mem_append]
      refine ⟨emptinessProblems_other, fun p member => ?_⟩
      split at member
      · contradiction
      · rw [List.mem_singleton.mp member]
        exact Flaw.noConfusion
  | choice | suffixed => exact disjointnessProblems_other
  | opt | rep | sepBy | immediate | sameLine | binary => exact emptinessProblems_other
  | tok | leaf | ref | seq | field | unary => exact fun p none => absurd none List.not_mem_nil

theorem problems_other (t : Table) : ∀ p ∈ t.problems, p.flaw ≠ .leftRecursion := by
  intro p member
  obtain ⟨r, _, inside⟩ := List.mem_flatMap.mp member
  obtain ⟨e, _, found⟩ := List.mem_flatMap.mp inside
  exact problemsOf_other p found

section

variable {g : Grammar}

theorem build_eq_error (declared : Grammar.declarationProblems [] g.rules ++ g.startProblems = [])
    (references : g.referenceProblems ++ g.symbolProblems = []) {ps : List Problem} :
    build g = .error ps ↔
      ps ≠ [] ∧ (draft g).2.map (⟨·, .leftRecursion⟩) ++ (draft g).1.problems = ps := by
  unfold build
  rw [declared, references]
  dsimp only
  split
  next p ps' found =>
    rw [found, Except.error.injEq]
    exact ⟨fun same => ⟨same ▸ List.cons_ne_nil p ps', same⟩, And.right⟩
  next found =>
    rw [found]
    refine iff_of_false (fun ok => by cases ok) ?_
    rintro ⟨nonempty, rfl⟩
    exact nonempty rfl

theorem reports_left_recursion_iff
    (declared : Grammar.declarationProblems [] g.rules ++ g.startProblems = [])
    (references : g.referenceProblems ++ g.symbolProblems = []) :
    (∃ ps, build g = .error ps ∧ ∃ p ∈ ps, p.flaw = .leftRecursion) ↔
      ∃ name, Grammar.Loops g.rules (Grammar.nullableRules g.rules) name := by
  constructor
  · rintro ⟨ps, failed, p, member, flaw⟩
    obtain ⟨_, rfl⟩ := (build_eq_error declared references).mp failed
    rcases List.mem_append.mp member with cycle | other
    · obtain ⟨name, reported, _⟩ := List.mem_map.mp cycle
      exact ⟨name, loops_of_reported reported⟩
    · exact absurd flaw (problems_other _ p other)
  · rintro ⟨name, loop⟩
    obtain ⟨first, cycles, reported⟩ := List.exists_cons_of_ne_nil
      (exists_reported (List.append_eq_nil_iff.mp declared).1
        (List.append_eq_nil_iff.mp references).1 loop)
    refine ⟨_, (build_eq_error declared references).mpr ⟨?_, rfl⟩, ⟨first, .leftRecursion⟩, ?_, rfl⟩
    · rw [reported]
      exact List.cons_ne_nil _ _
    · rw [reported]
      exact List.mem_cons_self

/-- Of a grammar that gets past the first stages, left recursion is reported
exactly if a rule can start itself. If the grammar is accepted, the sets of all
its expressions solve the equations for first terminals, and they are what is
noted in the end: whatever the search noted, the checks look at every part. -/
theorem left_recursion_exact
    (declared : Grammar.declarationProblems [] g.rules ++ g.startProblems = [])
    (references : g.referenceProblems ++ g.symbolProblems = []) :
    ((∃ ps, build g = .error ps ∧ ∃ p ∈ ps, p.flaw = .leftRecursion) ↔
        ∃ name, Grammar.Loops g.rules (Grammar.nullableRules g.rules) name) ∧
      ∀ t, build g = .ok t → ∀ e, t.Part e → t.Equation t.first e ∧
        ((∀ name, e ≠ .ref name) → ∀ (early : Notes) (asked : List Expr),
          (∀ p, t.Part p → p ∈ asked) →
            ∀ set, Latest (t.notes early asked) e set ↔ set = t.first e) := by
  refine ⟨reports_left_recursion_iff declared references, fun t built e part => ⟨?_, ?_⟩⟩
  · exact (accepted_of_build built).equation part
  · exact fun plain early asked all => latest_notes_iff (all e part) plain

end

def entwined : Grammar where
  name := "entwined"
  start := "list"
  rules :=
    [⟨"list", "", false, "", .seq [.opt (.tok "[" []), .ref "item"]⟩,
      ⟨"item", "", false, "", .choice [.ref "list", .tok "number" []]⟩]

theorem left_recursion_exact_entwined :
    (∃ ps, build entwined = .error ps ∧ ∃ p ∈ ps, p.flaw = .leftRecursion) ∧
      ∀ e, mq.Part e → mq.Equation mq.first e ∧ ((∀ name, e ≠ .ref name) →
        Latest (mq.notes [] (mq.rules.flatMap (·.body.parts))) e (mq.first e)) := by
  constructor
  · refine (left_recursion_exact (by decide) (by decide)).1.mpr ⟨"list", ?_⟩
    have down : Grammar.LeadsTo entwined.rules (Grammar.nullableRules entwined.rules) "list"
        "item" := ⟨_, List.mem_cons_self, rfl, by decide⟩
    have up : Grammar.LeadsTo entwined.rules (Grammar.nullableRules entwined.rules) "item"
        "list" := ⟨_, List.mem_cons_of_mem _ List.mem_cons_self, rfl, by decide⟩
    exact .tail (.single down) up
  · intro e part
    obtain ⟨equation, noted⟩ :=
      (left_recursion_exact Mq.declarations_sound Mq.references_sound).2 mq Mq.build_eq e part
    exact ⟨equation, fun plain => (noted plain [] _ (fun p inside => List.mem_flatMap.mpr inside)
      _).mpr rfl⟩

end Table

end MqTree
