import Mathlib.Data.List.Perm.Subperm
import MqTree.Proofs.Grammar.Parts

namespace MqTree

/-! The search for the terminals that start rules. Where it meets no rule twice
on one path, it leaves the rules in an order in which each is behind all that
can start it, and with the sets that solve the equations for first terminals. -/

namespace Expr

mutual

/-- The rules that can start an expression, without the rules that can start
those. -/
def leaders (known : List String) : Expr → List String
  | .tok _ _ | .leaf _ _ => []
  | .ref name => [name]
  | .seq items => leadersOfSeq known items
  | .choice alts | .ordered alts => leadersOfAlts known alts
  | .opt body | .rep body _ | .sepBy body _ _ | .field _ body | .immediate body
  | .sameLine body | .stmts _ body _ | .suffixed body _ _ | .binary _ body _ | .unary _ _ body =>
      leaders known body

def leadersOfSeq (known : List String) : List Expr → List String
  | [] => []
  | e :: es => leaders known e ++ if e.nullable known then leadersOfSeq known es else []

def leadersOfAlts (known : List String) : List Expr → List String
  | [] => []
  | e :: es => leaders known e ++ leadersOfAlts known es

end

mutual

theorem ref_mem_parts_of_leaders {known : List String} {name : String} (e : Expr)
    (member : name ∈ e.leaders known) : .ref name ∈ e.parts := by
  match e with
  | .tok .. | .leaf .. => simp [leaders] at member
  | .ref other =>
      rw [leaders, List.mem_singleton] at member
      rw [member]
      exact mem_parts_self _
  | .seq es =>
      rw [leaders] at member
      rw [parts, partsOfAll_eq]
      exact List.mem_cons_of_mem _ (ref_mem_parts_of_leadersOfSeq es member)
  | .choice es | .ordered es =>
      rw [leaders] at member
      rw [parts, partsOfAll_eq]
      exact List.mem_cons_of_mem _ (ref_mem_parts_of_leadersOfAlts es member)
  | .suffixed head _ _ =>
      rw [leaders] at member
      rw [parts]
      exact List.mem_cons_of_mem _ (List.mem_append_left _ (ref_mem_parts_of_leaders head member))
  | .opt body | .rep body _ | .sepBy body _ _ | .field _ body | .immediate body | .sameLine body
  | .stmts _ body _ | .binary _ body _ | .unary _ _ body =>
      rw [leaders] at member
      rw [parts]
      exact List.mem_cons_of_mem _ (ref_mem_parts_of_leaders body member)

theorem ref_mem_parts_of_leadersOfSeq {known : List String} {name : String} (es : List Expr)
    (member : name ∈ leadersOfSeq known es) : .ref name ∈ es.flatMap parts := by
  match es with
  | [] => simp [leadersOfSeq] at member
  | e :: es =>
      rw [leadersOfSeq, List.mem_append] at member
      rw [List.flatMap_cons, List.mem_append]
      rcases member with here | later
      · exact Or.inl (ref_mem_parts_of_leaders e here)
      · split at later
        · exact Or.inr (ref_mem_parts_of_leadersOfSeq es later)
        · contradiction

theorem ref_mem_parts_of_leadersOfAlts {known : List String} {name : String} (es : List Expr)
    (member : name ∈ leadersOfAlts known es) : .ref name ∈ es.flatMap parts := by
  match es with
  | [] => simp [leadersOfAlts] at member
  | e :: es =>
      rw [leadersOfAlts, List.mem_append] at member
      rw [List.flatMap_cons, List.mem_append]
      rcases member with here | later
      · exact Or.inl (ref_mem_parts_of_leaders e here)
      · exact Or.inr (ref_mem_parts_of_leadersOfAlts es later)

end

end Expr

namespace Table

variable {t : Table}

def firstBy (t : Table) (look : String → TermSet) (e : Expr) : TermSet :=
  Id.run (e.firstM t.terminal t.nullables look)

def firstOfSeqBy (t : Table) (look : String → TermSet) (es : List Expr) : TermSet :=
  Id.run (Expr.firstOfSeq t.terminal t.nullables look es)

def firstOfAltsBy (t : Table) (look : String → TermSet) (es : List Expr) : TermSet :=
  Id.run (Expr.firstOfAlts t.terminal t.nullables look es)

theorem firstOfSeqBy_cons (look : String → TermSet) (e : Expr) (es : List Expr) :
    t.firstOfSeqBy look (e :: es) =
      if e.nullable t.nullables then t.firstBy look e ||| t.firstOfSeqBy look es
      else t.firstBy look e := by
  unfold firstOfSeqBy firstBy
  rw [Expr.firstOfSeq]
  cases e.nullable t.nullables <;> rfl

mutual

theorem firstBy_congr {look look' : String → TermSet} (e : Expr)
    (same : ∀ name ∈ e.leaders t.nullables, look name = look' name) :
    t.firstBy look e = t.firstBy look' e := by
  match e with
  | .tok .. | .leaf .. => rfl
  | .ref name => exact same name (by rw [Expr.leaders]; exact List.mem_singleton_self name)
  | .seq es => exact firstOfSeqBy_congr es (by rwa [Expr.leaders] at same)
  | .choice es | .ordered es => exact firstOfAltsBy_congr es (by rwa [Expr.leaders] at same)
  | .opt body | .rep body _ | .sepBy body _ _ | .field _ body | .immediate body | .sameLine body
  | .stmts _ body _ | .suffixed body _ _ | .binary _ body _ =>
      exact firstBy_congr body (by rwa [Expr.leaders] at same)
  | .unary _ ops operand =>
      have inner := firstBy_congr operand (by rwa [Expr.leaders] at same)
      exact congrArg (ops.foldr fun op set => t.terminal op ||| set) inner

theorem firstOfSeqBy_congr {look look' : String → TermSet} (es : List Expr)
    (same : ∀ name ∈ Expr.leadersOfSeq t.nullables es, look name = look' name) :
    t.firstOfSeqBy look es = t.firstOfSeqBy look' es := by
  match es with
  | [] => rfl
  | e :: es =>
      rw [Expr.leadersOfSeq, List.forall_mem_append] at same
      rw [firstOfSeqBy_cons, firstOfSeqBy_cons, firstBy_congr e same.1]
      cases empty : e.nullable t.nullables with
      | false => rfl
      | true =>
          rw [empty, if_pos rfl] at same
          rw [firstOfSeqBy_congr es same.2]

theorem firstOfAltsBy_congr {look look' : String → TermSet} (es : List Expr)
    (same : ∀ name ∈ Expr.leadersOfAlts t.nullables es, look name = look' name) :
    t.firstOfAltsBy look es = t.firstOfAltsBy look' es := by
  match es with
  | [] => rfl
  | e :: es =>
      rw [Expr.leadersOfAlts, List.forall_mem_append] at same
      have here := firstBy_congr e same.1
      have rest := firstOfAltsBy_congr es same.2
      show t.firstBy look e ||| t.firstOfAltsBy look es = _
      rw [here, rest]
      rfl

end

def lookIn (firsts : List (String × TermSet)) (name : String) : TermSet :=
  (firsts.lookup name).getD TermSet.empty

/-- Rules that are done, each behind those that can start it. -/
def Settled (t : Table) : List (String × TermSet) → Prop
  | [] => True
  | (name, set) :: rest =>
      Settled t rest ∧ rest.lookup name = none ∧ ∃ r, t.rule? name = some r ∧
        (∀ x ∈ r.body.leaders t.nullables, (rest.lookup x).isSome = true) ∧
        set = t.firstBy (lookIn rest) r.body

/-- A search that went on from one state to another and met no cycle. The rules
of `path` are under way and stay so. -/
structure Explored (t : Table) (path : List String) (s s' : Search) : Prop where
  cycles : s.cycles = []
  settled : Settled t s.firsts → Settled t s'.firsts
  kept : ∀ name set, s.firsts.lookup name = some set → s'.firsts.lookup name = some set
  pending : ∀ name ∈ path, s.firsts.lookup name = none → s'.firsts.lookup name = none

namespace Explored

variable {path : List String} {s s' s'' : Search}

theorem refl (none : s.cycles = []) : Explored t path s s :=
  ⟨none, id, fun _ _ => id, fun _ _ => id⟩

theorem trans (first : Explored t path s s') (second : Explored t path s' s'') :
    Explored t path s s'' where
  cycles := first.cycles
  settled := second.settled ∘ first.settled
  kept name set found := second.kept name set (first.kept name set found)
  pending name member none := second.pending name member (first.pending name member none)

theorem isSome (explored : Explored t path s s') {name : String}
    (found : (s.firsts.lookup name).isSome = true) : (s'.firsts.lookup name).isSome = true := by
  obtain ⟨set, present⟩ := Option.isSome_iff_exists.mp found
  rw [explored.kept name set present]
  rfl

theorem lookIn_eq (explored : Explored t path s s') {name : String}
    (found : (s.firsts.lookup name).isSome = true) :
    lookIn s'.firsts name = lookIn s.firsts name := by
  obtain ⟨set, present⟩ := Option.isSome_iff_exists.mp found
  rw [lookIn, lookIn, explored.kept name set present, present]

end Explored

def Finds (t : Table) (path : List String) (rule : String → StateM Search TermSet)
    (name : String) : Prop :=
  ∀ s, (rule name s).2.cycles = [] →
    Explored t path s (rule name s).2 ∧ (rule name s).2.firsts.lookup name = some (rule name s).1

structure Collected (t : Table) (path : List String) (s s' : Search) (names : List String)
    (set : (String → TermSet) → TermSet) (found : TermSet) : Prop where
  explored : Explored t path s s'
  all : ∀ name ∈ names, (s'.firsts.lookup name).isSome = true
  eq : found = set (lookIn s'.firsts)

section

variable {path : List String} {rule : String → StateM Search TermSet}

mutual

theorem firstM_collects (e : Expr) (finds : ∀ name ∈ e.leaders t.nullables, Finds t path rule name)
    (s : Search) (none : (e.firstM t.terminal t.nullables rule s).2.cycles = []) :
    Collected t path s (e.firstM t.terminal t.nullables rule s).2 (e.leaders t.nullables)
      (fun look => t.firstBy look e) (e.firstM t.terminal t.nullables rule s).1 := by
  match e with
  | .tok .. | .leaf .. => exact ⟨.refl none, fun _ member => by simp [Expr.leaders] at member, rfl⟩
  | .ref name =>
      have here : name ∈ (Expr.ref name).leaders t.nullables := by
        rw [Expr.leaders]
        exact List.mem_singleton_self name
      obtain ⟨explored, found⟩ := finds name here s none
      refine ⟨explored, fun other member => ?_, ?_⟩
      · rw [Expr.leaders, List.mem_singleton] at member
        rw [member]
        exact Option.isSome_of_eq_some found
      · show (rule name s).1 = lookIn (rule name s).2.firsts name
        rw [lookIn, found]
        rfl
  | .seq es =>
      rw [Expr.leaders] at finds ⊢
      exact firstOfSeq_collects es finds s none
  | .choice es | .ordered es =>
      rw [Expr.leaders] at finds ⊢
      exact firstOfAlts_collects es finds s none
  | .opt body | .rep body _ | .sepBy body _ _ | .field _ body | .immediate body | .sameLine body
  | .stmts _ body _ | .suffixed body _ _ | .binary _ body _ =>
      rw [Expr.leaders] at finds ⊢
      exact firstM_collects body finds s none
  | .unary _ ops operand =>
      rw [Expr.leaders] at finds ⊢
      obtain ⟨explored, all, eq⟩ := firstM_collects operand finds s none
      exact ⟨explored, all, congrArg (ops.foldr fun op set => t.terminal op ||| set) eq⟩

theorem firstOfSeq_collects (es : List Expr)
    (finds : ∀ name ∈ Expr.leadersOfSeq t.nullables es, Finds t path rule name) (s : Search)
    (none : (Expr.firstOfSeq t.terminal t.nullables rule es s).2.cycles = []) :
    Collected t path s (Expr.firstOfSeq t.terminal t.nullables rule es s).2
      (Expr.leadersOfSeq t.nullables es) (fun look => t.firstOfSeqBy look es)
      (Expr.firstOfSeq t.terminal t.nullables rule es s).1 := by
  match es with
  | [] => exact ⟨.refl none, fun _ member => by simp [Expr.leadersOfSeq] at member, rfl⟩
  | e :: es =>
      rw [Expr.leadersOfSeq, List.forall_mem_append] at finds
      rw [Expr.leadersOfSeq]
      cases empty : e.nullable t.nullables with
      | false =>
          have step : Expr.firstOfSeq t.terminal t.nullables rule (e :: es) s =
              e.firstM t.terminal t.nullables rule s := by
            rw [Expr.firstOfSeq, empty]
            rfl
          rw [step] at none ⊢
          obtain ⟨explored, all, eq⟩ := firstM_collects e finds.1 s none
          refine ⟨explored, by simpa using all, ?_⟩
          rw [firstOfSeqBy_cons, empty]
          exact eq
      | true =>
          rw [empty, if_pos rfl] at finds
          have step : Expr.firstOfSeq t.terminal t.nullables rule (e :: es) s =
              ((e.firstM t.terminal t.nullables rule s).1 |||
                (Expr.firstOfSeq t.terminal t.nullables rule es
                  (e.firstM t.terminal t.nullables rule s).2).1,
              (Expr.firstOfSeq t.terminal t.nullables rule es
                (e.firstM t.terminal t.nullables rule s).2).2) := by
            rw [Expr.firstOfSeq, empty]
            rfl
          rw [step] at none ⊢
          have rest := firstOfSeq_collects es finds.2 _ none
          have head := firstM_collects e finds.1 s rest.explored.cycles
          refine ⟨head.explored.trans rest.explored, ?_, ?_⟩
          · rw [if_pos rfl, List.forall_mem_append]
            exact ⟨fun name member => rest.explored.isSome (head.all name member), rest.all⟩
          · have stays := firstBy_congr (t := t) e fun name member =>
              rest.explored.lookIn_eq (head.all name member)
            rw [firstOfSeqBy_cons, if_pos empty, stays, ← head.eq, ← rest.eq]

theorem firstOfAlts_collects (es : List Expr)
    (finds : ∀ name ∈ Expr.leadersOfAlts t.nullables es, Finds t path rule name) (s : Search)
    (none : (Expr.firstOfAlts t.terminal t.nullables rule es s).2.cycles = []) :
    Collected t path s (Expr.firstOfAlts t.terminal t.nullables rule es s).2
      (Expr.leadersOfAlts t.nullables es) (fun look => t.firstOfAltsBy look es)
      (Expr.firstOfAlts t.terminal t.nullables rule es s).1 := by
  match es with
  | [] => exact ⟨.refl none, fun _ member => by simp [Expr.leadersOfAlts] at member, rfl⟩
  | e :: es =>
      rw [Expr.leadersOfAlts, List.forall_mem_append] at finds
      rw [Expr.leadersOfAlts]
      have step : Expr.firstOfAlts t.terminal t.nullables rule (e :: es) s =
          ((e.firstM t.terminal t.nullables rule s).1 |||
            (Expr.firstOfAlts t.terminal t.nullables rule es
              (e.firstM t.terminal t.nullables rule s).2).1,
          (Expr.firstOfAlts t.terminal t.nullables rule es
            (e.firstM t.terminal t.nullables rule s).2).2) := rfl
      rw [step] at none ⊢
      have rest := firstOfAlts_collects es finds.2 _ none
      have head := firstM_collects e finds.1 s rest.explored.cycles
      refine ⟨head.explored.trans rest.explored, ?_, ?_⟩
      · rw [List.forall_mem_append]
        exact ⟨fun name member => rest.explored.isSome (head.all name member), rest.all⟩
      · have stays := firstBy_congr (t := t) e fun name member =>
          rest.explored.lookIn_eq (head.all name member)
        show _ = t.firstBy _ e ||| t.firstOfAltsBy _ es
        rw [stays, ← head.eq, ← rest.eq]

end

end

section

variable {n : Nat} {path : List String} {name : String} {s : Search}

theorem searchRule_of_done {set : TermSet} (done : s.firsts.lookup name = some set) :
    t.searchRule (n + 1) path name s = (set, s) := by
  simp only [searchRule, bind, StateT.bind, get, getThe, MonadStateOf.get, StateT.get, pure, done]
  rfl

variable {r : Rule}

theorem searchRule_of_cycle (fresh : s.firsts.lookup name = none) (rule : t.rule? name = some r)
    (cycle : name ∈ path) :
    t.searchRule (n + 1) path name s =
      (TermSet.empty, { s with cycles := s.cycles ++ [name] }) := by
  simp only [searchRule, bind, StateT.bind, get, getThe, MonadStateOf.get, StateT.get, pure, fresh,
    rule, List.contains_iff_mem.mpr cycle, if_true]
  rfl

theorem searchRule_of_new (fresh : s.firsts.lookup name = none) (rule : t.rule? name = some r)
    (first : name ∉ path) :
    t.searchRule (n + 1) path name s =
      let found := r.body.firstM t.terminal t.nullables (t.searchRule n (name :: path)) s
      (found.1, { found.2 with firsts := (name, found.1) :: found.2.firsts }) := by
  have other : path.contains name = false := by simpa using first
  simp only [searchRule, bind, StateT.bind, get, getThe, MonadStateOf.get, StateT.get, pure, fresh,
    rule, other]
  rfl

end

theorem lookup_cons_of_ne {name other : String} (differs : other ≠ name) (set : TermSet)
    (firsts : List (String × TermSet)) :
    ((name, set) :: firsts).lookup other = firsts.lookup other := by
  rw [List.lookup_cons, beq_false_of_ne differs]

def Resolved (t : Table) : Prop := ∀ name, t.Part (.ref name) → (t.rule? name).isSome = true

theorem searchRule_finds (resolved : t.Resolved) {n : Nat} {path : List String} {name : String}
    (unique : path.Nodup) (under : ∀ name ∈ path, (t.rule? name).isSome = true)
    (enough : t.rules.length < path.length + n) (present : (t.rule? name).isSome = true) :
    Finds t path (t.searchRule n path) name := by
  induction n generalizing path name with
  | zero =>
      -- A path holds rules, and each once.
      have inside : path ⊆ t.rules.map Rule.name := by
        intro name member
        obtain ⟨r, found⟩ := Option.isSome_iff_exists.mp (under name member)
        obtain ⟨rule, rfl⟩ := rule?_eq_some found
        exact List.mem_map_of_mem rule
      have few := (List.subperm_of_subset unique inside).length_le
      rw [List.length_map] at few
      omega
  | succ n ih =>
      intro s none
      obtain ⟨r, rule⟩ := Option.isSome_iff_exists.mp present
      cases done : s.firsts.lookup name with
      | some set =>
          rw [searchRule_of_done done] at none ⊢
          exact ⟨.refl none, done⟩
      | none =>
          by_cases cycle : name ∈ path
          · rw [searchRule_of_cycle done rule cycle] at none
            simp at none
          · have below : ∀ x ∈ r.body.leaders t.nullables,
                Finds t (name :: path) (t.searchRule n (name :: path)) x := by
              intro x member
              apply ih (List.nodup_cons.mpr ⟨cycle, unique⟩)
                (List.forall_mem_cons.mpr ⟨present, under⟩)
              · rw [List.length_cons]
                omega
              · exact resolved x ⟨r, (rule?_eq_some rule).1,
                  Expr.ref_mem_parts_of_leaders r.body member⟩
            rw [searchRule_of_new done rule cycle] at none ⊢
            obtain ⟨explored, all, eq⟩ := firstM_collects r.body below s none
            have still := explored.pending name List.mem_cons_self done
            refine ⟨⟨explored.cycles, ?_, ?_, ?_⟩, List.lookup_cons_self⟩
            · exact fun settled => ⟨explored.settled settled, still, r, rule, all, eq⟩
            · intro other set found
              have kept := explored.kept other set found
              have differs : other ≠ name := by
                rintro rfl
                rw [still] at kept
                contradiction
              rwa [lookup_cons_of_ne differs]
            · intro other member fresh
              have differs : other ≠ name := by
                rintro rfl
                exact cycle member
              rw [lookup_cons_of_ne differs]
              exact explored.pending other (List.mem_cons_of_mem name member) fresh

/-- A search without cycles is done with every rule. -/
theorem search_finds (resolved : t.Resolved) (rules : List Rule)
    (present : ∀ r ∈ rules, (t.rule? r.name).isSome = true) (s : Search)
    (none : (rules.foldl (fun s r => (t.searchRule (t.rules.length + 1) [] r.name s).2) s).cycles =
      []) :
    Explored t [] s
        (rules.foldl (fun s r => (t.searchRule (t.rules.length + 1) [] r.name s).2) s) ∧
      ∀ r ∈ rules, ((rules.foldl (fun s r => (t.searchRule (t.rules.length + 1) [] r.name s).2)
        s).firsts.lookup r.name).isSome = true := by
  induction rules generalizing s with
  | nil => exact ⟨.refl none, fun r member => absurd member List.not_mem_nil⟩
  | cons r rules ih =>
      obtain ⟨here, later⟩ := List.forall_mem_cons.mp present
      rw [List.foldl_cons] at none ⊢
      obtain ⟨rest, all⟩ := ih later _ none
      obtain ⟨first, found⟩ := searchRule_finds resolved List.nodup_nil
        (fun _ member => absurd member List.not_mem_nil) (by simp) here s rest.cycles
      refine ⟨first.trans rest, List.forall_mem_cons.mpr ⟨?_, all⟩⟩
      exact rest.isSome (Option.isSome_of_eq_some found)

def rankIn : List (String × TermSet) → String → Nat
  | [], _ => 0
  | (other, _) :: rest, name => if name = other then rest.length + 1 else rankIn rest name

theorem rankIn_le (firsts : List (String × TermSet)) (name : String) :
    rankIn firsts name ≤ firsts.length := by
  induction firsts with
  | nil => exact Nat.le_refl 0
  | cons entry rest ih =>
      rw [rankIn, List.length_cons]
      split
      · exact Nat.le_refl _
      · exact Nat.le_succ_of_le ih

theorem Settled.rule {firsts : List (String × TermSet)} (settled : Settled t firsts)
    {name : String} {set : TermSet} (found : firsts.lookup name = some set) :
    ∃ r, t.rule? name = some r ∧ set = t.firstBy (lookIn firsts) r.body ∧
      ∀ x ∈ r.body.leaders t.nullables,
        (firsts.lookup x).isSome = true ∧ rankIn firsts x < rankIn firsts name := by
  induction firsts with
  | nil => contradiction
  | cons entry rest ih =>
      obtain ⟨other, value⟩ := entry
      obtain ⟨below, fresh, r, rule, all, eq⟩ := settled
      have older {x : String} (known : (rest.lookup x).isSome = true) : x ≠ other := by
        rintro rfl
        rw [fresh] at known
        contradiction
      have stays {q : Rule} (known : ∀ x ∈ q.body.leaders t.nullables,
          (rest.lookup x).isSome = true) :
          t.firstBy (lookIn ((other, value) :: rest)) q.body = t.firstBy (lookIn rest) q.body := by
        apply firstBy_congr
        intro x member
        rw [lookIn, lookIn, lookup_cons_of_ne (older (known x member))]
      by_cases same : name = other
      · subst same
        rw [List.lookup_cons_self] at found
        obtain rfl := Option.some.inj found
        refine ⟨r, rule, eq.trans (stays all).symm, fun x member => ?_⟩
        have differs := older (all x member)
        rw [lookup_cons_of_ne differs, rankIn, rankIn, if_neg differs, if_pos rfl]
        exact ⟨all x member, Nat.lt_succ_of_le (rankIn_le rest x)⟩
      · rw [lookup_cons_of_ne same] at found
        obtain ⟨q, rule', eq', inner⟩ := ih below found
        refine ⟨q, rule', eq'.trans (stays fun x member => (inner x member).1).symm,
          fun x member => ?_⟩
        have differs := older (inner x member).1
        rw [lookup_cons_of_ne differs, rankIn, rankIn, if_neg differs, if_neg same]
        exact inner x member

/-- A table whose rules have the sets of their bodies, in an order in which no
rule can start one before it. -/
structure Ranked (t : Table) : Prop where
  first : ∀ {name r}, t.rule? name = some r → t.ruleFirst name = t.first r.body
  order : ∃ rank : String → Nat, ∀ {name r}, t.rule? name = some r →
    ∀ x ∈ r.body.leaders t.nullables, rank x < rank name

theorem ranked_of_search (resolved : t.Resolved) (none : t.search.cycles = []) :
    Ranked { t with firsts := t.search.firsts } := by
  have present : ∀ r ∈ t.rules, (t.rule? r.name).isSome = true := by
    intro r member
    rw [rule?, List.find?_isSome]
    exact ⟨r, member, beq_self_eq_true r.name⟩
  obtain ⟨explored, all⟩ := search_finds resolved t.rules present ⟨[], []⟩ none
  have settled : Settled t t.search.firsts := explored.settled trivial
  have found {name : String} {r : Rule} (rule : t.rule? name = some r) :
      t.search.firsts.lookup name = some (t.firstBy (lookIn t.search.firsts) r.body) ∧
        ∀ x ∈ r.body.leaders t.nullables,
          rankIn t.search.firsts x < rankIn t.search.firsts name := by
    obtain ⟨member, rfl⟩ := rule?_eq_some rule
    obtain ⟨set, done⟩ := Option.isSome_iff_exists.mp (all r member)
    obtain ⟨q, rule', eq, inner⟩ := settled.rule done
    obtain rfl := Option.some.inj (rule'.symm.trans rule)
    exact ⟨eq ▸ done, fun x member => (inner x member).2⟩
  refine ⟨fun {name r} rule => ?_, rankIn t.search.firsts, fun rule => (found rule).2⟩
  show (t.search.firsts.lookup name).getD TermSet.empty = _
  rw [(found rule).1]
  rfl

end Table

end MqTree
