import MqTree.Proofs.Parser.Production
import MqTree.Proofs.Parser.Required

namespace MqTree

/-! What an expression puts around: comments, placeholders, leaves and nodes of
certain kinds, and errors around a few tokens that were skipped on the way. -/

namespace Expr

def suffixKinds : Expr → List String
  | .suffixed _ _ all => all.map Suffix.kind
  | _ => []

def operatorKinds : Expr → List String
  | .binary kind _ _ | .unary kind _ _ => [kind]
  | _ => []

variable (t : Table) (kinds : List String)

mutual

/-- Whether an expression puts no leaf and no node of certain kinds around, and
is no list of statements. -/
def quiet : Expr → Bool
  | .tok kind _ | .leaf kind _ => !kinds.contains kind
  | .ref name => (t.rule? name).all fun r => r.hidden || !kinds.contains r.nodeKind
  | .seq es | .choice es | .ordered es => allQuiet es
  | .opt body | .rep body _ | .field _ body | .immediate body | .sameLine body => quiet body
  | .sepBy elem sep _ => !kinds.contains sep && quiet elem
  | .stmts _ _ _ => false
  | .suffixed head _ all => quiet head && all.all fun x => !kinds.contains x.kind
  | .binary kind operand _ | .unary kind _ operand => !kinds.contains kind && quiet operand

def allQuiet : List Expr → Bool
  | [] => true
  | e :: es => quiet e && allQuiet es

end

theorem allQuiet_eq_true {es : List Expr} :
    allQuiet t kinds es = true ↔ ∀ e ∈ es, e.quiet t kinds = true := by
  induction es with
  | nil => simp [allQuiet]
  | cons e es ih => rw [allQuiet, Bool.and_eq_true, ih, List.forall_mem_cons]

end Expr

def Table.Quiet (t : Table) (kinds : List String) : Prop :=
  ∀ {name r}, t.rule? name = some r → r.hidden = true → r.body.quiet t kinds = true

namespace Parser

inductive Placed (c : Context) (kinds : List String) : Node → Prop
  | comment {it : Item} (comment : IsComment it) : Placed c kinds it.toNode
  | skipped {s q : State} {n : Nat} {items : List Item} (heard : Heard c s) (few : n ≤ c.window)
      (passes : Passes c (fun q => q.skippable = true) n s items q) :
      Placed c kinds (q.finish errorKind "" items).toNode
  | missing {label : String} {start : Int} : Placed c kinds ⟨.placeholder label, start⟩
  | leaf {kind : String} {named : Bool} {token : Token} (proper : isProper kind = true)
      (other : kind ∉ kinds) : Placed c kinds ⟨.ofToken kind named token, token.start⟩
  | node {s : State} {kind field : String} {items : List Item} (proper : isProper kind = true)
      (other : kind ∉ kinds) : Placed c kinds (s.finish kind field items).toNode

variable {c : Context} {level : List String} {rank : String → Nat} {kinds : List String}
  {s r q : State} {items : List Item} {it : Item} {field : String}

theorem kind_finish (s : State) (kind field : String) (items : List Item) :
    (s.finish kind field items).toNode.kind = kind :=
  congrArg TypeRef.type (ref_finish s kind field items).1

namespace Placed

theorem kind_notMem {n : Node} (placed : Placed c kinds n)
    (proper : ∀ kind ∈ kinds, isProper kind = true) : n.kind ∉ kinds := by
  intro member
  obtain ⟨_, noComment, noError, noMissing⟩ := isProper_iff.mp (proper _ member)
  cases placed with
  | comment comment =>
      obtain ⟨token, _, rfl⟩ := comment
      exact noComment rfl
  | skipped heard few passes => exact noError (kind_finish ..)
  | missing => exact noMissing rfl
  | leaf proper other => exact other member
  | @node s kind field items proper other =>
      rw [kind_finish] at member
      exact other member

end Placed

theorem placed_withField (placed : ∀ it ∈ items, Placed c kinds it.toNode) (field : String) :
    ∀ it ∈ withField field items, Placed c kinds it.toNode := by
  intro it member
  obtain ⟨own, here, same⟩ := mem_of_withField member
  rw [same]
  exact placed own here

theorem placed_consume {kind : String} {named : Bool} (faces : Faces c s)
    (proper : isProper kind = true) (other : kind ∉ kinds) :
    ∀ it ∈ (s.consume c field kind named).1, Placed c kinds it.toNode :=
  forall_mem_consume faces (fun _ comment => .comment comment) (.leaf proper other)

theorem placed_skipTo {e : Expr} {error : Item} (heard : Heard c s)
    (found : skipTo c e s = (some error, r)) : Placed c kinds error.toNode := by
  obtain ⟨_, _, _, _, few, passes, rfl, _⟩ := passes_of_skipTo found
  exact .skipped heard few passes

def Job.quiet (t : Table) (kinds : List String) : Job → Bool
  | .task (.expr e _) | .recover e _ | .task (.copies e _ _ _) => e.quiet t kinds
  | .sequence es _ => Expr.allQuiet t kinds es
  | .task (.elements elem sep trailing _) => (Expr.sepBy elem sep trailing).quiet t kinds
  | .task (.statements _ _ _) => false
  | .task (.suffixes _ all _ _ _) => all.all fun x => !kinds.contains x.kind
  | .task (.operand kind operand ops _ _) => (Expr.binary kind operand ops).quiet t kinds
  | .task (.operators kind _ _ _ _ _) => !kinds.contains kind

def Job.Places (c : Context) (kinds : List String) (items : List Item) : Job → Prop
  | .task (.suffixes _ _ kind built _) =>
      (kind = "" → ∀ it ∈ built, Placed c kinds it.toNode) →
        (kind ≠ "" → isProper kind = true ∧ kind ∉ kinds) → ∀ it ∈ items, Placed c kinds it.toNode
  | .task (.operators _ _ _ _ left _) =>
      (∀ it ∈ left, Placed c kinds it.toNode) → ∀ it ∈ items, Placed c kinds it.toNode
  | _ => ∀ it ∈ items, Placed c kinds it.toNode

theorem placed_close {kind : String} {built : List Item}
    (placed : kind = "" → ∀ it ∈ built, Placed c kinds it.toNode)
    (proper : kind ≠ "" → isProper kind = true ∧ kind ∉ kinds) :
    ∀ it ∈ closeSuffixes s kind built, Placed c kinds it.toNode := by
  unfold closeSuffixes
  split
  next none => exact placed none
  next some => exact List.forall_mem_singleton.mpr (.node (proper some).1 (proper some).2)

theorem placed_separator {elem : Expr} {sep : String} {trailing : Bool}
    (tidy : c.table.Tidy level rank) (faces : Faces c s)
    (part : c.table.Part (.sepBy elem sep trailing)) (calm : (!kinds.contains sep) = true) :
    ∀ it ∈ (s.consume c "" sep false).1, Placed c kinds it.toNode := by
  have own := tidy.parts part
  rw [Expr.tidy, Bool.and_eq_true] at own
  exact placed_consume faces own.1 (by simpa using calm)

theorem placed_leaf {kind sym : String} {named : Bool} (tidy : c.table.Tidy level rank)
    (faces : Faces c s) (part : c.table.Part (.leaf kind sym))
    (calm : (!kinds.contains kind) = true) :
    ∀ it ∈ (s.consume c field kind named).1, Placed c kinds it.toNode := by
  have own := tidy.parts part
  simp only [Expr.tidy, Bool.and_eq_true] at own
  exact placed_consume faces own.1.1.1 (by simpa using calm)

theorem suffix_free {head : Expr} {many : Bool} {all : List (Suffix Expr)} {x : Suffix Expr}
    (tidy : c.table.Tidy level rank) (part : c.table.Part (.suffixed head many all))
    (others : (all.all fun x => !kinds.contains x.kind) = true) (member : x ∈ all) :
    x.kind ≠ "" ∧ isProper x.kind = true ∧ x.kind ∉ kinds := by
  obtain ⟨some, proper⟩ := suffix_kind tidy part member
  exact ⟨some, proper, by simpa using List.all_eq_true.mp others x member⟩

theorem Yields.places {job : Job} (yields : Yields c job s items r)
    (tidy : c.table.Tidy level rank) (quiet : c.table.Quiet kinds) (heard : Heard c s)
    (known : job.Known c.table) (calm : job.quiet c.table kinds = true) :
    job.Places c kinds items := by
  induction yields with
  | tok more symbol word =>
      refine placed_consume heard.toFaces (tidy.parts known) ?_
      simpa [Job.quiet, Expr.quiet] using calm
  | leaf more symbol => exact placed_leaf tidy heard.toFaces known calm
  | recovered _ inner ih => exact ih heard known calm
  | placeholder returns label => exact List.forall_mem_singleton.mpr .missing
  | skipped found inner ih =>
      exact List.forall_mem_cons.mpr
        ⟨placed_skipTo heard found, ih (heard.skipTo found) known calm⟩
  | spliced found hidden inner ih => exact ih heard (Table.part_body found) (quiet found hidden)
  | node found visible inner ih =>
      refine List.forall_mem_singleton.mpr (.node (tidy.rules found visible) ?_)
      simpa [Job.quiet, Expr.quiet, found, visible] using calm
  | seq inner ih => exact ih heard (fun e member => known.inner member) calm
  | nil | absent | noElement => exact fun it none => absurd none List.not_mem_nil
  | enough least => exact fun it none => absurd none List.not_mem_nil
  | cons head rest first second =>
      obtain ⟨atHead, behind⟩ := List.forall_mem_cons.mp known
      obtain ⟨here, later⟩ := Bool.and_eq_true_iff.mp calm
      exact List.forall_mem_append.mpr
        ⟨first heard atHead here, second (head.heard heard) behind later⟩
  | choice member inner ih =>
      exact ih heard (known.inner member) ((Expr.allQuiet_eq_true _ _).mp calm _ member)
  | ordered member returns inner ih =>
      exact ih (heard.returns returns) (known.inner member)
        ((Expr.allQuiet_eq_true _ _).mp calm _ member)
  | present inner ih | immediate _ inner ih | distant _ inner ih | sameLine _ inner ih
  | broken _ inner ih | field inner ih => exact ih heard (known.only rfl) calm
  | rep inner ih | list inner ih | binary inner ih => exact ih heard known calm
  | copy one rest first second | forced one rest first second =>
      exact List.forall_mem_append.mpr
        ⟨first heard (known.only rfl) calm, second (one.heard heard) known calm⟩
  | lastElement one ih | unsigned one ih =>
      exact ih heard (known.only rfl) (Bool.and_eq_true_iff.mp calm).2
  | separated one symbol rest first second =>
      have facing := one.heard heard
      obtain ⟨sep, elem⟩ := Bool.and_eq_true_iff.mp calm
      exact List.forall_mem_append.mpr ⟨first heard (known.only rfl) elem,
        List.forall_mem_append.mpr
          ⟨placed_separator tidy facing.toFaces known sep, second facing.moved known calm⟩⟩
  | trailing one symbol ih =>
      obtain ⟨sep, elem⟩ := Bool.and_eq_true_iff.mp calm
      exact List.forall_mem_append.mpr ⟨ih heard (known.only rfl) elem,
        placed_separator tidy (one.heard heard).toFaces known sep⟩
  | dangling one symbol rest first second =>
      have facing := one.heard heard
      obtain ⟨sep, elem⟩ := Bool.and_eq_true_iff.mp calm
      exact List.forall_mem_append.mpr ⟨first heard (known.only rfl) elem,
        List.forall_mem_append.mpr ⟨placed_separator tidy facing.toFaces known sep,
          second facing.moved (known.only rfl) elem⟩⟩
  | stmts | ended | statement | unexpected => contradiction
  | suffixed front rest first second =>
      obtain ⟨head, others⟩ := Bool.and_eq_true_iff.mp calm
      exact second (front.heard heard) ⟨_, known⟩ others
        (fun _ => first heard known.head head) (absurd rfl)
  | noSuffix => exact fun placed proper => placed_withField (placed_close placed proper) _
  | suffix member _ one rest first second =>
      -- From the first suffix on, the head is inside a node.
      intro _ _
      obtain ⟨head, part⟩ := known
      obtain ⟨some, free⟩ := suffix_free tidy part calm member
      exact second (one.heard heard) ⟨head, part⟩ calm (absurd · some) fun _ => free
  | onlySuffix member _ one ih =>
      intro _ _
      obtain ⟨head, part⟩ := known
      obtain ⟨some, free⟩ := suffix_free tidy part calm member
      exact placed_withField (placed_close (absurd · some) fun _ => free) _
  | operand one rest first second =>
      obtain ⟨own, operand⟩ := Bool.and_eq_true_iff.mp calm
      exact second (one.heard heard) known own (first heard (known.only rfl) operand)
  | noOperator => exact fun placed => placed_withField placed _
  | operator mark member _ _ one rest first second =>
      intro _
      refine second (one.heard heard.moved) known calm
        (List.forall_mem_singleton.mpr (.node (operator_proper tidy known member).1 ?_))
      simpa [Job.quiet] using calm
  | signed mark member inner ih =>
      have own := tidy.parts known
      rw [Expr.tidy, Bool.and_eq_true] at own
      refine List.forall_mem_singleton.mpr (.node own.1 ?_)
      simpa using (Bool.and_eq_true_iff.mp calm).1

theorem Faces.meets {e : Expr} (faces : Faces c s) (tidy : c.table.Tidy level rank)
    (part : c.table.Part e) (starts : s.canStart c e = true) : s.meets c e = true := by
  cases e with
  | tok sym words => exact tok_taken faces.terminal (tidy.parts part) starts
  | leaf kind sym =>
      have own := tidy.parts part
      simp only [Expr.tidy, Bool.and_eq_true] at own
      exact leaf_taken faces.terminal own.1.2 starts
  | ref name => rw [State.meets, starts, Bool.or_true]
  | choice alts =>
      rw [State.canStart, State.anyCanStart_eq_true] at starts
      rw [State.meets, List.find?_isSome]
      exact starts
  | _ => exact starts

theorem Yields.taken {sym : String} {words : List String}
    (yields : Yields c (.task (.expr (.tok sym words) field)) s items r)
    (met : s.meets c (.tok sym words) = true) :
    items = (s.consume c field sym (isNamedSymbol sym)).1 ∧ r = s.moved c ∧
      s.token.isEnd = false ∧ s.token.symbol = sym := by
  cases yields with
  | tok more symbol word => exact ⟨rfl, rfl, more, symbol⟩
  | @recovered _ _ _ _ _ refused whole inner =>
      rw [met] at refused
      contradiction

theorem Yields.opened {sym : String} {words : List String} {es : List Expr}
    (yields : Yields c (.task (.expr (.seq (.tok sym words :: es)) field)) s items r)
    (tidy : c.table.Tidy level rank) (faces : Faces c s)
    (part : c.table.Part (.seq (.tok sym words :: es)))
    (starts : s.canStart c (.seq (.tok sym words :: es)) = true) :
    ∃ more, items = (s.consume c field sym (isNamedSymbol sym)).1 ++ more ∧
      s.token.isEnd = false ∧ s.token.symbol = sym ∧
      Yields c (.sequence es field) (s.moved c) more r := by
  rw [State.canStart] at starts
  have first : s.canStart c (.tok sym words) = true :=
    (head_starts (show Expr.leadsHead c.table.nullables (.tok sym words :: es) = true from rfl)
      starts).2
  have met := faces.meets tidy (part.inner List.mem_cons_self) first
  cases yields with
  | recovered whole => contradiction
  | seq inner =>
      cases inner with
      | @cons _ _ _ _ _ _ more _ head rest =>
          obtain ⟨rfl, rfl, running, symbol⟩ := head.taken met
          exact ⟨more, rfl, running, symbol, rest⟩

/-- A rule that is entered at the token has a body that the token can start. -/
theorem State.canStart_of_meets {o : Outline} {name : String} {rule : Rule}
    (law : c.table.Lawful o) (found : c.table.rule? name = some rule)
    (required : c.table.nullable (.ref name) = false) (met : s.meets c (.ref name) = true) :
    s.canStart c rule.body = true := by
  rw [State.meets, required, Bool.false_or] at met
  exact (body_starts (law.rules found required) found met).2

inductive Ruled (c : Context) (kind : String) (items : List Item) : Prop
  | rule {name : String} {rule : Rule} {s r : State} (part : c.table.Part (.ref name))
      (found : c.table.rule? name = some rule) (visible : rule.hidden = false)
      (own : rule.nodeKind = kind) (heard : Heard c s) (met : s.meets c (.ref name) = true)
      (inner : Yields c (.task (.expr rule.body "")) s items r)

inductive Trailed (c : Context) (kind : String) (items : List Item) : Prop
  | suffixes {head : Expr} {many : Bool} {all : List (Suffix Expr)} {s : State}
      (part : c.table.Part (.suffixed head many all))
      (listed : kind ∈ (Expr.suffixed head many all).suffixKinds)
      (gathers : Gathers c head many all kind items s)

theorem Production.ruled_or_trailed {kind : String} (production : Production c kind items)
    (other : ∀ {e}, c.table.Part e → kind ∉ e.operatorKinds) (right : kind ≠ errorKind) :
    Ruled c kind items ∨ Trailed c kind items := by
  cases production with
  | rule part found visible heard met inner =>
      exact Or.inl (.rule part found visible rfl heard met inner)
  | suffixed part member gathers =>
      exact Or.inr (.suffixes part (List.mem_map_of_mem member) gathers)
  | operation part | signed part => exact absurd (List.mem_singleton_self _) (other part)
  | skipped | unexpected => exact absurd rfl right

end Parser

end MqTree
