import MqTree.Proofs.Parser.Contents

namespace MqTree

/-! What has to follow another thing at once, or on the same line, does so in
every tree: whatever is recovered from, nothing is joined across a line that the
grammar keeps apart. -/

def Node.leavesOf (n : Node) (kind : String) : List Node :=
  n.children.filter fun child => child.sub.isLeaf && child.kind == kind

namespace Expr

def ways : Expr → List Expr
  | .choice alts => alts
  | .field _ body => [body]
  | e => [e]

variable (t : Table) (kinds : List String)

/-- Whether only the first thing that an expression puts around can be of
certain kinds. -/
def fronted : Expr → Bool
  | .ref name => (t.rule? name).all fun r => !r.hidden
  | .seq (.tok _ _ :: es) => allQuiet t kinds es
  | _ => false

/-- Whether what an expression puts around of certain kinds is first in what may
not start a line. -/
def tied : Expr → Bool
  | .opt (.sameLine body) => body.ways.all (fronted t kinds)
  | .rep (.sameLine body) min => min == 0 && body.ways.all (fronted t kinds)
  | e => e.quiet t kinds

def trails : Expr → Bool
  | .sameLine body => body.ways.all (fronted t kinds)
  | .seq es => es.all (tied t kinds)
  | e => e.quiet t kinds

def joins : Expr → Bool
  | .suffixed head _ all =>
      head.quiet t kinds && all.all fun x => !kinds.contains x.kind && x.tail.trails t kinds
  | _ => true

def opensWith (sym : String) : Expr → Bool
  | .seq (.tok own _ :: es) => own == sym && allQuiet t [sym] es
  | _ => false

def adjoins (first second : String) : Expr → Bool
  | .seq [.tok sym _, .immediate (.tok other _)] => sym == first && other == second
  | _ => false

/-- Whether an expression puts a terminal first that does not close anything,
and nothing of certain kinds but that. -/
def opening : Expr → Bool
  | .seq (.tok sym _ :: es) => sym != "]" && allQuiet t kinds es
  | e => e.quiet t kinds

def dotted : Expr → Bool
  | .seq [.tok sym _, .choice alts, e] =>
      sym != "]" && alts.all (opening t kinds) && e.tied t kinds
  | _ => false

end Expr

namespace Mq

def lined : List String := ["argument_list", ".", "["]

theorem rules_quiet : ∀ kinds ∈ [lined, ["("], [":"]], ∀ r ∈ mq.rules, r.hidden = true →
    r.body.quiet mq kinds = true := by
  decide +kernel

theorem parts_join : ∀ r ∈ mq.rules, ∀ e ∈ r.body.parts, e.joins mq lined = true := by
  decide +kernel

def guarded : List String :=
  ["symbol", "type_pattern", "call", "qualified_access", "selector_expression"]

theorem operators_unguarded : ∀ r ∈ mq.rules, ∀ e ∈ r.body.parts, ∀ kind ∈ guarded,
    kind ∉ e.operatorKinds := by
  decide +kernel

theorem names_untrailed : ∀ r ∈ mq.rules, ∀ e ∈ r.body.parts, ∀ kind ∈ ["symbol", "type_pattern"],
    kind ∉ e.suffixKinds := by
  decide +kernel

theorem calls_unruled : ∀ r ∈ mq.rules, r.nodeKind ∉ ["call", "qualified_access"] := by
  decide +kernel

theorem names_adjoin : ∀ r ∈ mq.rules, r.nodeKind ∈ ["symbol", "type_pattern"] →
    r.body.adjoins ":" "identifier" = true ∧ r.body.opensWith mq ":" = true ∧
      mq.nullable (.ref r.name) = false := by
  decide +kernel

theorem arguments_open : ∀ r ∈ mq.rules, r.nodeKind = "argument_list" →
    r.body.opensWith mq "(" = true ∧ mq.nullable (.ref r.name) = false := by
  decide +kernel

theorem selectors_dotted : ∀ r ∈ mq.rules, r.nodeKind = "selector_expression" →
    r.body.dotted mq lined = true ∧ r.body.mentions "base" = false ∧
      mq.nullable (.ref r.name) = false := by
  decide +kernel

end Mq

namespace Parser

inductive Enters (c : Context) (s : State) : Node → Prop
  | leaf {named : Bool} (more : s.token.isEnd = false) :
      Enters c s ⟨.ofToken s.token.symbol named s.token, s.token.start⟩
  | node {name field : String} {rule : Rule} {items : List Item} {r : State}
      (found : c.table.rule? name = some rule) (met : s.meets c (.ref name) = true)
      (inner : Yields c (.task (.expr rule.body "")) s items r) :
      Enters c s (r.finish rule.nodeKind field items).toNode

def Tied (c : Context) (kinds : List String) (n : Node) : Prop :=
  n.kind ∈ kinds → ∃ s, Heard c s ∧ s.token.newlineBefore = false ∧ Enters c s n

structure Joins (c : Context) (level : List String) (rank : String → Nat) (kinds : List String) :
    Prop where
  tidy : c.table.Tidy level rank
  quiet : c.table.Quiet kinds
  proper : ∀ kind ∈ kinds, isProper kind = true

variable {c : Context} {level : List String} {rank : String → Nat} {kinds : List String}
  {s r q : State} {items : List Item} {it : Item} {field : String} {e : Expr}

theorem Yields.entered (yields : Yields c (.task (.expr e field)) s items r)
    (tidy : c.table.Tidy level rank) (faces : Faces c s) (part : c.table.Part e)
    (starts : s.canStart c e = true) :
    ∃ way ∈ e.ways, ∃ own, c.table.Part way ∧ s.canStart c way = true ∧
      Yields c (.task (.expr way own)) s items r := by
  cases e with
  | choice alts =>
      cases yields with
      | @recovered _ _ _ _ _ refused whole inner =>
          rw [faces.meets tidy part starts] at refused
          contradiction
      | choice member inner => exact ⟨_, member, field, part.inner member, by assumption, inner⟩
  | field name body =>
      cases yields with
      | recovered whole => contradiction
      | field inner =>
          have own := List.mem_singleton_self body
          exact ⟨body, own, name, part.inner own, starts, inner⟩
  | _ => exact ⟨_, List.mem_singleton_self _, field, part, starts, yields⟩

section

variable (joins : Joins c level rank kinds)

include joins

theorem Placed.tied {n : Node} (placed : Placed c kinds n) : Tied c kinds n :=
  fun member => absurd member (placed.kind_notMem joins.proper)

omit joins in
theorem tied_withField (tied : ∀ it ∈ items, Tied c kinds it.toNode) (field : String) :
    ∀ it ∈ withField field items, Tied c kinds it.toNode := by
  intro it member
  obtain ⟨own, here, same⟩ := mem_of_withField member
  rw [same]
  exact tied own here

theorem tied_of_placed (placed : ∀ it ∈ items, Placed c kinds it.toNode) :
    ∀ it ∈ items, Tied c kinds it.toNode :=
  fun it member => (placed it member).tied joins

theorem Yields.tied_fronted (yields : Yields c (.task (.expr e field)) s items r)
    (heard : Heard c s) (part : c.table.Part e) (starts : s.canStart c e = true)
    (unbroken : s.token.newlineBefore = false) (fronted : e.fronted c.table kinds = true) :
    ∀ it ∈ items, Tied c kinds it.toNode := by
  unfold Expr.fronted at fronted
  split at fronted
  next name =>
    cases yields with
    | @recovered _ _ _ _ _ refused whole inner =>
        rw [heard.toFaces.meets joins.tidy part starts] at refused
        contradiction
    | spliced found hidden inner =>
        rw [found, Option.all_some, hidden] at fronted
        contradiction
    | @node _ _ _ _ _ _ met found visible inner =>
        exact List.forall_mem_singleton.mpr fun _ => ⟨s, heard, unbroken, .node found met inner⟩
  next sym words es =>
    obtain ⟨more, rfl, running, symbol, rest⟩ :=
      yields.opened joins.tidy heard.toFaces part starts
    refine List.forall_mem_append.mpr ⟨?_, ?_⟩
    · refine forall_mem_consume heard.toFaces
        (fun it comment => (Placed.comment comment).tied joins) fun _ => ⟨s, heard, unbroken, ?_⟩
      rw [← symbol]
      exact .leaf running
    · have parts (e : Expr) (member : e ∈ es) : c.table.Part e :=
        part.inner (List.mem_cons_of_mem _ member)
      exact tied_of_placed joins (rest.places joins.tidy joins.quiet heard.moved parts fronted)
  next => contradiction

theorem Yields.tied_ways {body : Expr}
    (yields : Yields c (.task (.expr (.sameLine body) field)) s items r) (heard : Heard c s)
    (part : c.table.Part (.sameLine body))
    (starts : s.canStart c (.sameLine body) = true)
    (fronted : body.ways.all (Expr.fronted c.table kinds) = true) :
    ∀ it ∈ items, Tied c kinds it.toNode := by
  cases yields with
  | recovered whole => contradiction
  | broken refused inner =>
      rw [starts] at refused
      contradiction
  | sameLine unbroken inner =>
      obtain ⟨way, member, own, known, fits, entered⟩ := inner.entered joins.tidy heard.toFaces
        (part.only rfl) (by assumption)
      exact entered.tied_fronted joins heard known fits unbroken
        (List.all_eq_true.mp fronted way member)

theorem Yields.tied_copies {job : Job} {body : Expr} {count : Nat}
    (yields : Yields c job s items r)
    (same : job = .task (.copies (.sameLine body) 0 count field)) (heard : Heard c s)
    (part : c.table.Part (.sameLine body))
    (fronted : body.ways.all (Expr.fronted c.table kinds) = true) :
    ∀ it ∈ items, Tied c kinds it.toNode := by
  induction yields generalizing count with
  | enough => exact fun it none => absurd none List.not_mem_nil
  | copy one rest first second =>
      cases same
      exact List.forall_mem_append.mpr
        ⟨one.tied_ways joins heard part (by assumption) fronted, second rfl (one.heard heard)⟩
  | forced one rest =>
      -- No copies are asked for, so none is made where none can start.
      cases same
      exact absurd (Int.natCast_nonneg _) (by assumption)
  | _ => cases same

theorem Yields.tied (yields : Yields c (.task (.expr e field)) s items r) (heard : Heard c s)
    (part : c.table.Part e) (tied : e.tied c.table kinds = true) :
    ∀ it ∈ items, Tied c kinds it.toNode := by
  unfold Expr.tied at tied
  split at tied
  next body =>
    cases yields with
    | recovered whole => contradiction
    | absent => exact fun it none => absurd none List.not_mem_nil
    | present inner =>
        exact inner.tied_ways joins heard (part.only rfl) (by assumption) tied
  next body min =>
    rw [Bool.and_eq_true, beq_iff_eq] at tied
    obtain ⟨rfl, fronted⟩ := tied
    cases yields with
    | recovered whole => contradiction
    | rep inner =>
        exact inner.tied_copies joins rfl heard (part.only rfl) fronted
  next => exact tied_of_placed joins (yields.places joins.tidy joins.quiet heard part tied)

theorem Yields.tied_sequence {es : List Expr} (yields : Yields c (.sequence es field) s items r)
    (heard : Heard c s) (parts : ∀ e ∈ es, c.table.Part e)
    (tied : ∀ e ∈ es, e.tied c.table kinds = true) : ∀ it ∈ items, Tied c kinds it.toNode := by
  induction es generalizing s items with
  | nil =>
      cases yields
      exact fun it none => absurd none List.not_mem_nil
  | cons e es ih =>
      obtain ⟨here, others⟩ := List.forall_mem_cons.mp parts
      obtain ⟨first, later⟩ := List.forall_mem_cons.mp tied
      cases yields with
      | cons head rest =>
          exact List.forall_mem_append.mpr
            ⟨head.tied joins heard here first, ih rest (head.heard heard) others later⟩

theorem Yields.tied_trails (yields : Yields c (.task (.expr e field)) s items r)
    (heard : Heard c s) (part : c.table.Part e) (starts : s.canStart c e = true)
    (trails : e.trails c.table kinds = true) : ∀ it ∈ items, Tied c kinds it.toNode := by
  unfold Expr.trails at trails
  split at trails
  next body => exact yields.tied_ways joins heard part starts trails
  next es =>
    cases yields with
    | recovered whole => contradiction
    | seq inner =>
        exact inner.tied_sequence joins heard (fun e member => part.inner member)
          (List.all_eq_true.mp trails)
  next => exact tied_of_placed joins (yields.places joins.tidy joins.quiet heard part trails)

/-- In a node of suffixes, what they start with is on the line of what is before
it. -/
theorem Gathers.tied {head : Expr} {many : Bool} {all : List (Suffix Expr)} {kind : String}
    {built : List Item} (gathers : Gathers c head many all kind built s)
    (part : c.table.Part (.suffixed head many all))
    (joined : (Expr.suffixed head many all).joins c.table kinds = true) :
    (kind ≠ "" → kind ∉ kinds) ∧ ∀ it ∈ built, Tied c kinds it.toNode := by
  rw [Expr.joins, Bool.and_eq_true, List.all_eq_true] at joined
  induction gathers with
  | head heard one =>
      exact ⟨absurd rfl, tied_of_placed joins
        (one.places joins.tidy joins.quiet heard part.head joined.1)⟩
  | @suffix kind built s x more r before again member starts one ih =>
      obtain ⟨other, tied⟩ := ih
      have own := joined.2 x member
      rw [Bool.and_eq_true] at own
      refine ⟨fun _ => by simpa using own.1, List.forall_mem_append.mpr ⟨?_, ?_⟩⟩
      · unfold gather
        split
        · exact tied
        · -- What was gathered so far becomes the head, as it is or as a node.
          refine tied_withField ?_ _
          unfold closeSuffixes
          split
          · exact tied
          next some =>
            refine List.forall_mem_singleton.mpr fun member => absurd member ?_
            rw [kind_finish]
            exact other some
      · exact one.tied_trails joins before.heard (part.tail member) starts own.2

end

theorem filter_leaves_eq_nil {sym : String} (proper : isProper sym = true)
    (placed : ∀ it ∈ items, Placed c [sym] it.toNode) :
    ((items.map Item.toNode).filter fun n => n.sub.isLeaf && n.kind == sym) = [] := by
  refine List.filter_eq_nil_iff.mpr fun n member => ?_
  obtain ⟨it, inside, rfl⟩ := List.mem_map.mp member
  have other := (placed it inside).kind_notMem (List.forall_mem_singleton.mpr proper)
  rw [List.mem_singleton] at other
  simp [other]

theorem leavesOf_opened {sym : String} {n : Node} (tidy : c.table.Tidy level rank)
    (quiet : c.table.Quiet [sym]) (heard : Heard c s) (part : c.table.Part e)
    (starts : s.canStart c e = true) (opens : e.opensWith c.table sym = true)
    (yields : Yields c (.task (.expr e "")) s items r)
    (children : n.children = items.map Item.toNode) :
    s.token.isEnd = false ∧
      n.leavesOf sym = [⟨.ofToken sym (isNamedSymbol sym) s.token, s.token.start⟩] := by
  unfold Expr.opensWith at opens
  split at opens
  next own words es =>
    rw [Bool.and_eq_true, beq_iff_eq] at opens
    obtain ⟨rfl, calm⟩ := opens
    have proper : isProper own = true := tidy.parts (part.inner List.mem_cons_self)
    obtain ⟨more, rfl, running, symbol, rest⟩ := yields.opened tidy heard.toFaces part starts
    have comments := filter_leaves_eq_nil proper fun it member =>
      Placed.comment (c := c) (heard.comments it member)
    have others := filter_leaves_eq_nil proper (rest.places tidy quiet heard.moved
      (fun e member => part.inner (List.mem_cons_of_mem _ member)) calm)
    refine ⟨running, ?_⟩
    rw [Node.leavesOf, children, State.consume_fst, List.map_append, List.map_append,
      List.filter_append, List.filter_append, comments, others, List.nil_append, List.append_nil]
    refine List.filter_eq_self.mpr (List.forall_mem_singleton.mpr ?_)
    simp [Item.toNode, Node.kind, Subtree.ofToken, Subtree.isLeaf, Subtree.kind]
  next => contradiction

theorem of_mem_consume {kind own : String} {named : Bool} (faces : Faces c s)
    (proper : isProper kind = true) (member : it ∈ (s.consume c field own named).1)
    (same : it.toNode.kind = kind) : own = kind ∧ it.start = s.token.start := by
  rw [State.consume_fst, List.mem_append, List.mem_singleton] at member
  rcases member with comment | rfl
  · obtain ⟨token, _, rfl⟩ := faces.comments it comment
    exact absurd same.symm (isProper_iff.mp proper).2.1
  · exact ⟨same, rfl⟩

theorem start_of_adjoins {first second : String} {n : Node} (tidy : c.table.Tidy level rank)
    (heard : Heard c s) (part : c.table.Part e) (starts : s.canStart c e = true)
    (adjoins : e.adjoins first second = true) (differs : first ≠ second)
    (yields : Yields c (.task (.expr e "")) s items r)
    (children : n.children = items.map Item.toNode) {m : Node} (member : m ∈ n.leavesOf second) :
    m.start = s.token.stop := by
  unfold Expr.adjoins at adjoins
  split at adjoins
  next own words other more =>
    rw [Bool.and_eq_true, beq_iff_eq, beq_iff_eq] at adjoins
    obtain ⟨rfl, rfl⟩ := adjoins
    have guarded := part.inner (List.mem_cons_of_mem _ List.mem_cons_self)
    have known := guarded.only rfl
    have proper : isProper other = true := tidy.parts known
    obtain ⟨rest, rfl, _, _, behind⟩ := yields.opened tidy heard.toFaces part starts
    obtain ⟨child, leaf⟩ := List.mem_filter.mp member
    rw [Bool.and_eq_true, beq_iff_eq] at leaf
    rw [children] at child
    obtain ⟨it, here, rfl⟩ := List.mem_map.mp child
    rcases List.mem_append.mp here with opened | here
    · exact absurd (of_mem_consume heard.toFaces proper opened leaf.2).1 differs
    cases behind with
    | cons head none =>
        cases none
        rw [List.append_nil] at here
        cases head with
        | recovered whole => contradiction
        | immediate adjacent inner =>
            obtain ⟨rfl, _⟩ := inner.taken (heard.moved.toFaces.meets tidy known (by assumption))
            have start := (of_mem_consume heard.moved.toFaces proper here leaf.2).2
            rw [State.prevEnd_moved] at adjacent
            rw [Item.toNode, start, adjacent]
        | distant refused inner =>
            obtain ⟨label, rfl⟩ : ∃ label, _ = [Item.mk "" _ (.placeholder label)] := by assumption
            rw [List.mem_singleton.mp here] at leaf
            exact absurd leaf.1 Bool.false_ne_true
  next => contradiction

/-! ### Selectors -/

def Early (it : Item) : Prop :=
  it.field = "" ∧ it.node.kind ≠ "]" ∧ it.node.kind ≠ missingKind

def Parted (c : Context) (kinds : List String) (items : List Item) : Prop :=
  ∃ front back, items = front ++ back ∧ (∀ it ∈ front, Early it) ∧
    ∀ it ∈ back, Tied c kinds it.toNode

theorem Parted.tied {front back : List Item} (parted : Parted c kinds (front ++ it :: back))
    {other : Item} (member : other ∈ front) (late : ¬Early other) : Tied c kinds it.toNode := by
  obtain ⟨first, second, split, early, tied⟩ := parted
  rcases List.append_eq_append_iff.mp split with ⟨more, rfl, rest⟩ | ⟨more, rfl, rest⟩
  · exact absurd (early other (List.mem_append_left _ member)) late
  · rw [rest] at tied
    exact tied it (List.mem_append_right _ List.mem_cons_self)

theorem early_consume {kind : String} {named : Bool} (faces : Faces c s)
    (proper : isProper kind = true) (opens : kind ≠ "]") :
    ∀ it ∈ (s.consume c "" kind named).1, Early it := by
  refine forall_mem_consume faces (fun it comment => ?_)
    ⟨rfl, opens, (isProper_iff.mp proper).2.2.2⟩
  obtain ⟨token, _, rfl⟩ := comment
  exact ⟨rfl, (by decide : commentSymbol ≠ "]"), (by decide : commentSymbol ≠ missingKind)⟩

theorem Wrong.early (wrong : Wrong it) : Early it := by
  obtain ⟨last, skipped, rfl, _⟩ := wrong
  have kind : (last.finish errorKind "" skipped).node.kind = errorKind := kind_finish ..
  refine ⟨(ref_finish ..).2, ?_, ?_⟩
  · rw [kind]
    decide
  · rw [kind]
    decide

section

variable (joins : Joins c level rank kinds)

include joins

theorem Yields.parted_opening (yields : Yields c (.task (.expr e "")) s items r) (heard : Heard c s)
    (part : c.table.Part e) (starts : s.canStart c e = true)
    (opening : e.opening c.table kinds = true) : Parted c kinds items := by
  unfold Expr.opening at opening
  split at opening
  next sym words es =>
    rw [Bool.and_eq_true, bne_iff_ne] at opening
    obtain ⟨more, rfl, _, _, rest⟩ := yields.opened joins.tidy heard.toFaces part starts
    have parts (e : Expr) (member : e ∈ es) : c.table.Part e :=
      part.inner (List.mem_cons_of_mem _ member)
    exact ⟨_, more, rfl,
      early_consume heard.toFaces (joins.tidy.parts (part.inner List.mem_cons_self)) opening.1,
      tied_of_placed joins
        (rest.places joins.tidy joins.quiet heard.moved parts opening.2)⟩
  next =>
    exact ⟨[], items, rfl, fun _ none => absurd none List.not_mem_nil,
      tied_of_placed joins (yields.places joins.tidy joins.quiet heard part opening)⟩

theorem Yields.parted_choice {job : Job} {alts : List Expr} (yields : Yields c job s items r)
    (same : job = .task (.expr (.choice alts) "") ∨ job = .recover (.choice alts) "")
    (heard : Heard c s) (part : c.table.Part (.choice alts))
    (opening : ∀ alt ∈ alts, alt.opening c.table kinds = true) : Parted c kinds items := by
  -- Recovery leads back to the alternatives, so the induction is over both jobs.
  induction yields with
  | recovered whole inner ih =>
      rcases same with same | same
      · cases same
        exact ih (Or.inr rfl) heard
      · cases same
  | placeholder =>
      exact ⟨[], _, rfl, fun _ none => absurd none List.not_mem_nil,
        List.forall_mem_singleton.mpr (Placed.missing.tied joins)⟩
  | skipped found inner ih =>
      rcases same with same | same
      · cases same
      · cases same
        obtain ⟨front, back, rfl, early, tied⟩ := ih (Or.inl rfl) (heard.skipTo found)
        exact ⟨_ :: front, back, rfl,
          List.forall_mem_cons.mpr ⟨(heard.toFaces.skipTo found).2.early, early⟩, tied⟩
  | choice member inner ih =>
      rcases same with same | same
      · cases same
        exact inner.parted_opening joins heard (part.inner member) (by assumption)
          (opening _ member)
      · cases same
  | _ => rcases same with same | same <;> cases same

theorem Yields.parted_dotted (yields : Yields c (.task (.expr e "")) s items r) (heard : Heard c s)
    (part : c.table.Part e) (starts : s.canStart c e = true)
    (dotted : e.dotted c.table kinds = true) : Parted c kinds items := by
  unfold Expr.dotted at dotted
  split at dotted
  next sym words alts last =>
    rw [Bool.and_eq_true, Bool.and_eq_true, bne_iff_ne, List.all_eq_true] at dotted
    obtain ⟨⟨opens, opening⟩, tied⟩ := dotted
    obtain ⟨more, rfl, _, _, rest⟩ := yields.opened joins.tidy heard.toFaces part starts
    have proper := joins.tidy.parts (part.inner List.mem_cons_self)
    have second := part.inner (List.mem_cons_of_mem _ List.mem_cons_self)
    have third := part.inner (List.mem_cons_of_mem _ (List.mem_cons_of_mem _ List.mem_cons_self))
    cases rest with
    | cons head behind =>
        obtain ⟨front, back, rfl, early, firm⟩ :=
          head.parted_choice joins (Or.inl rfl) heard.moved second opening
        have later := behind.tied_sequence joins (head.heard heard.moved)
          (List.forall_mem_singleton.mpr third) (List.forall_mem_singleton.mpr tied)
        refine ⟨(s.consume c "" sym (isNamedSymbol sym)).1 ++ front, back ++ _, ?_,
          List.forall_mem_append.mpr ⟨early_consume heard.toFaces proper opens, early⟩,
          List.forall_mem_append.mpr ⟨firm, later⟩⟩
        simp only [List.append_assoc]
  next => contradiction

end

/-! ### Nodes with guards -/

section

variable {window : Nat} {text : Text} {n m : Node}

theorem mq_quiet {kinds : List String} (listed : kinds ∈ [Mq.lined, ["("], [":"]]) :
    mq.Quiet kinds :=
  fun found => Mq.rules_quiet kinds listed _ (Table.rule?_eq_some found).1

theorem mq_joins (window : Nat) (text : Text) :
    Joins (Parser.context { window } text) Mq.level Mq.rank Mq.lined where
  tidy := Mq.tidy
  quiet := mq_quiet List.mem_cons_self
  proper := by decide

theorem Trailed.tied {kind : String}
    (trailed : Trailed (Parser.context { window } text) kind items) :
    ∀ it ∈ items, Tied (Parser.context { window } text) Mq.lined it.toNode := by
  obtain ⟨part, _, gathers⟩ := trailed
  have own := part
  obtain ⟨outer, listed, inside⟩ := own
  exact (gathers.tied (mq_joins window text) part (Mq.parts_join outer listed _ inside)).2

theorem ruled_or_trailed_of_made (made : Made (Parser.context { window } text) n)
    (guarded : n.kind ∈ Mq.guarded) (child : m ∈ n.children) :
    ∃ items, n.sub.children = items.map (Item.edge n.start) ∧ n.children = items.map Item.toNode ∧
      (Ruled (Parser.context { window } text) n.kind items ∨
        Trailed (Parser.context { window } text) n.kind items) := by
  obtain ⟨items, production, edges, children⟩ := made.produced child
  refine ⟨items, edges, children, production.ruled_or_trailed ?_ fun same => ?_⟩
  · rintro e ⟨r, listed, inside⟩
    exact Mq.operators_unguarded r listed e inside n.kind guarded
  · rw [same] at guarded
    exact absurd guarded (by decide)

theorem name_adjacent (made : Made (Parser.context { window } text) n)
    (kind : n.kind ∈ ["symbol", "type_pattern"]) (name : m ∈ n.leavesOf "identifier") :
    ∃ colon, n.leavesOf ":" = [colon] ∧ m.start = colon.stop := by
  have guarded : n.kind ∈ Mq.guarded := List.mem_append_left _ kind
  obtain ⟨items, _, children, ruled | trailed⟩ :=
    ruled_or_trailed_of_made made guarded (List.mem_filter.mp name).1
  · obtain ⟨part, found, visible, own, heard, met, inner⟩ := ruled
    obtain ⟨listed, rfl⟩ := Table.rule?_eq_some found
    obtain ⟨adjoins, opens, required⟩ := Mq.names_adjoin _ listed (own ▸ kind)
    have starts := State.canStart_of_meets Mq.lawful found required met
    have body := Table.part_body found
    have start := start_of_adjoins Mq.tidy heard body starts adjoins (by decide) inner children name
    obtain ⟨_, colons⟩ := leavesOf_opened Mq.tidy (mq_quiet (by simp)) heard body starts opens inner
      children
    refine ⟨_, colons, ?_⟩
    have order := heard.start_le_stop
    rw [start, Node.stop]
    simp only [Subtree.ofToken, Subtree.length, Token.length]
    omega
  · obtain ⟨⟨outer, listed, inside⟩, here, _⟩ := trailed
    exact absurd here (Mq.names_untrailed outer listed _ inside _ kind)

theorem arguments_joined (made : Made (Parser.context { window } text) n)
    (kind : n.kind ∈ ["call", "qualified_access"]) (child : m ∈ n.children)
    (arguments : m.kind = "argument_list") :
    ∃ (s : State) (bracket : Node), Heard (Parser.context { window } text) s ∧
      s.token.isEnd = false ∧ s.token.newlineBefore = false ∧ m.leavesOf "(" = [bracket] ∧
      bracket.start = s.token.start := by
  have guarded : n.kind ∈ Mq.guarded :=
    List.mem_append_right ["symbol", "type_pattern"] (List.mem_append_left _ kind)
  obtain ⟨items, _, children, ruled | trailed⟩ := ruled_or_trailed_of_made made guarded child
  · obtain ⟨part, found, visible, own, heard, met, inner⟩ := ruled
    have listed := (Table.rule?_eq_some found).1
    exact absurd (own ▸ kind) (Mq.calls_unruled _ listed)
  · rw [children] at child
    obtain ⟨it, here, same⟩ := List.mem_map.mp child
    have entered := trailed.tied it here
    rw [same] at entered
    obtain ⟨s, heard, unbroken, enters⟩ := entered (by rw [arguments]; decide)
    cases enters with
    | leaf more =>
        have symbol := Token.symbol_mem heard.spells
        rw [show s.token.symbol = "argument_list" from arguments] at symbol
        exact absurd symbol (by decide +kernel)
    | node found met inner =>
        rw [kind_finish] at arguments
        obtain ⟨listed, rfl⟩ := Table.rule?_eq_some found
        obtain ⟨opens, required⟩ := Mq.arguments_open _ listed arguments
        have starts := State.canStart_of_meets Mq.lawful found required met
        obtain ⟨more, brackets⟩ := leavesOf_opened Mq.tidy (mq_quiet (by simp)) heard
          (Table.part_body found) starts opens inner (toNode_finish ..)
        exact ⟨s, _, heard, more, unbroken, brackets, rfl⟩

theorem suffix_joined (made : Made (Parser.context { window } text) n)
    (kind : n.kind = "selector_expression") {front back : List (Edge Subtree)}
    {edge : Edge Subtree} (split : n.sub.children = front ++ edge :: back)
    (leaf : edge.node.isLeaf = true) (mark : edge.node.kind ∈ [".", "["])
    (suffix : (∃ base ∈ n.sub.children, base.field = "base") ∨
      ∃ other ∈ front, other.field = "property" ∨
        (other.node.isLeaf = true ∧ other.node.kind = "]") ∨ other.node.isMissing = true) :
    ∃ s, Heard (Parser.context { window } text) s ∧ s.token.isEnd = false ∧
      s.token.newlineBefore = false ∧ (n.child edge).start = s.token.start := by
  have child : n.child edge ∈ n.children := by
    rw [Node.children, split]
    exact List.mem_map_of_mem (List.mem_append_right _ List.mem_cons_self)
  obtain ⟨items, edges, _, made⟩ := ruled_or_trailed_of_made made (by rw [kind]; decide) child
  rw [split] at edges
  obtain ⟨before, _, rfl, rfl, rest⟩ := List.map_eq_append_iff.mp edges.symm
  obtain ⟨it, behind, rfl, rfl, rfl⟩ := List.map_eq_cons_iff.mp rest
  have tied : Tied (Parser.context { window } text) Mq.lined it.toNode := by
    rcases made with ruled | trailed
    · obtain ⟨part, found, visible, own, heard, met, inner⟩ := ruled
      obtain ⟨listed, rfl⟩ := Table.rule?_eq_some found
      obtain ⟨dotted, silent, required⟩ := Mq.selectors_dotted _ listed (own.trans kind)
      have starts := State.canStart_of_meets Mq.lawful found required met
      have body := Table.part_body found
      rcases suffix with ⟨base, member, named⟩ | ⟨other, member, late⟩
      · -- A selector that starts with its dot has no base.
        have lacks := inner.lacks Mq.tidy Mq.focused heard.toFaces body (by decide : "base" ≠ "")
          (Job.mentions_eq_false.mpr ⟨by decide, silent⟩)
        rw [split, edges] at member
        obtain ⟨own, inside, rfl⟩ := List.mem_map.mp member
        exact absurd named (lacks own inside)
      · obtain ⟨own, inside, rfl⟩ := List.mem_map.mp member
        refine (inner.parted_dotted (mq_joins window text) heard body starts dotted).tied inside ?_
        rintro ⟨unnamed, noBracket, noMissing⟩
        rcases late with property | ⟨_, bracket⟩ | missing
        · exact absurd (unnamed.symm.trans property) (by decide)
        · exact noBracket bracket
        · exact noMissing (beq_iff_eq.mp missing)
    · exact trailed.tied it (List.mem_append_right _ List.mem_cons_self)
  have place : (n.child (it.edge n.start)).start = it.toNode.start := by
    simp only [Node.child, Item.edge, Item.toNode]
    omega
  obtain ⟨s, heard, unbroken, enters⟩ := tied (List.mem_cons_of_mem _ mark)
  rw [place]
  change it.toNode.sub.isLeaf = true at leaf
  generalize it.toNode = opening at enters leaf
  cases enters with
  | leaf more => exact ⟨s, heard, more, unbroken, rfl⟩
  | @node name field rule items r found met inner =>
      obtain ⟨_, _, branch⟩ := children_finish r rule.nodeKind field items
      rw [Item.toNode, branch] at leaf
      exact absurd leaf Bool.false_ne_true

end

/-- Guards hold in every tree: the name of a symbol or a type starts where the
colon ends, arguments are on the line of what they are given to, and so is each
suffix of a selector. -/
theorem guards_hold (window : Nat) (text : Text) :
    ∃ tree, Parser.parse { window } text = .ok tree ∧
      (∀ n ∈ tree.rootNode.walk, n.kind ∈ ["symbol", "type_pattern"] →
        ∀ m ∈ n.leavesOf "identifier",
          ∃ colon, n.leavesOf ":" = [colon] ∧ m.start = colon.stop) ∧
      (∀ n ∈ tree.rootNode.walk, n.kind ∈ ["call", "qualified_access"] →
        ∀ arguments ∈ n.children, arguments.kind = "argument_list" →
          ∃ bracket, arguments.leavesOf "(" = [bracket] ∧ tree.Joined bracket) ∧
      (∀ n ∈ tree.rootNode.walk, n.kind = "selector_expression" →
        ∀ front edge back, n.sub.children = front ++ edge :: back →
          edge.node.isLeaf = true → edge.node.kind ∈ [".", "["] →
          ((∃ base ∈ n.sub.children, base.field = "base") ∨
            ∃ other ∈ front, other.field = "property" ∨
              (other.node.isLeaf = true ∧ other.node.kind = "]") ∨ other.node.isMissing = true) →
          tree.Joined (n.child edge)) := by
  obtain ⟨items, last, parsed, _⟩ := parse_described window text
  refine ⟨_, parse_eq_of_build (parsed.build_eq Mq.lawful), ?_, ?_, ?_⟩
  · intro n member kind m name
    rcases parsed.makes rfl mq_part_start member with rfl | made
    · exact absurd kind (by decide : sourceFile ∉ ["symbol", "type_pattern"])
    · exact name_adjacent made kind name
  · intro n member kind m child arguments
    rcases parsed.makes rfl mq_part_start member with rfl | made
    · exact absurd kind (by decide : sourceFile ∉ ["call", "qualified_access"])
    · obtain ⟨s, bracket, heard, more, unbroken, brackets, start⟩ :=
        arguments_joined made kind child arguments
      exact ⟨bracket, brackets, parsed.joined rfl rfl heard more unbroken start⟩
  · intro n member kind front edge back split leaf mark suffix
    rcases parsed.makes rfl mq_part_start member with rfl | made
    · exact absurd kind (by decide : sourceFile ≠ "selector_expression")
    · obtain ⟨s, heard, more, unbroken, start⟩ := suffix_joined made kind split leaf mark suffix
      exact parsed.joined rfl rfl heard more unbroken start

end Parser

end MqTree
