import MqTree.Proofs.Grammar.First
import MqTree.Proofs.Parser.Contents
import MqTree.Proofs.Parser.Entry
import MqTree.Proofs.Parser.Follow

namespace MqTree

/-! How much of a text an error takes: what does not fit is given up in small
pieces, none of which another construct needs. -/

def Node.pieces (n : Node) : List Node := n.children.filter (·.kind != commentSymbol)

def Expr.refersTo (name : String) : Expr → Bool
  | .ref other => other == name
  | _ => false

/-- Whether there is no list of statements in the nodes that an expression makes
itself. -/
def Expr.contained (t : Table) : Expr → Bool
  | .suffixed head _ all => head.quiet t [] && all.all (·.tail.quiet t [])
  | .binary _ operand _ | .unary _ _ operand => operand.quiet t []
  | _ => true

structure Table.Contains (t : Table) (lists : List String) : Prop where
  quiet : t.Quiet []
  rules : ∀ {name r}, t.rule? name = some r → r.nodeKind ∉ lists → r.body.quiet t [] = true
  parts : ∀ {e}, t.Part e → e.contained t = true

namespace Mq

def lists : List String :=
  [sourceFile, "module_expr", "def_expr", "foreach_expr", "while_expr", "block_expr"]

theorem rules_contained : ∀ r ∈ mq.rules, r.hidden = true ∨ r.nodeKind ∉ lists →
    r.body.quiet mq [] = true := by
  decide +kernel

theorem parts_contained : ∀ r ∈ mq.rules, ∀ e ∈ r.body.parts, e.contained mq = true := by
  decide +kernel

theorem contains : mq.Contains lists where
  quiet found hidden := rules_contained _ (Table.rule?_eq_some found).1 (Or.inl hidden)
  rules found other := rules_contained _ (Table.rule?_eq_some found).1 (Or.inr other)
  parts := fun ⟨r, member, inside⟩ => parts_contained r member _ inside

theorem outermost : ∀ r ∈ mq.rules, ∀ e ∈ r.body.parts,
    sourceFile ∉ e.operatorKinds ∧ sourceFile ∉ e.suffixKinds ∧
      ∀ other ∈ mq.rules, other.nodeKind = sourceFile → e.refersTo other.name = false := by
  decide +kernel

end Mq

namespace Parser

variable {c : Context} {s r q : State} {items : List Item} {it : Item} {n : Node}

def State.leaf (s : State) : Node :=
  ⟨.ofToken s.token.symbol (isNamedSymbol s.token.symbol) s.token, s.token.start⟩

def pieces (items : List Item) : List Node :=
  (items.map Item.toNode).filter (·.kind != commentSymbol)

theorem pieces_finish (s : State) (kind field : String) (items : List Item) :
    (s.finish kind field items).toNode.pieces = pieces items := by
  rw [Node.pieces, toNode_finish, pieces]

theorem pieces_append (items more : List Item) :
    pieces (items ++ more) = pieces items ++ pieces more := by
  rw [pieces, List.map_append, List.filter_append]
  rfl

theorem pieces_consumeAny (heard : Heard c s) : pieces (s.consumeAny c).1 = [s.leaf] := by
  have comments : pieces s.pending = [] := by
    refine List.filter_eq_nil_iff.mpr fun n member => ?_
    obtain ⟨it, inside, rfl⟩ := List.mem_map.mp member
    obtain ⟨token, _, rfl⟩ := heard.comments it inside
    simp [Node.kind, Item.toNode, commentItem, Subtree.ofToken, Subtree.kind]
  rw [State.consumeAny, State.consume_fst, pieces_append, comments, List.nil_append]
  refine List.filter_eq_self.mpr (List.forall_mem_singleton.mpr ?_)
  exact bne_iff_ne.mpr heard.symbol_ne

theorem Passes.pieces_eq {P : State → Prop} {n : Nat} (passes : Passes c P n s items r)
    (heard : Heard c s) : ∃ states : List State, states.length = n ∧
      pieces items = states.map State.leaf ∧ ∀ q ∈ states, Heard c q ∧ P q := by
  induction passes with
  | done s => exact ⟨[], rfl, rfl, fun _ none => absurd none List.not_mem_nil⟩
  | @token n s r items here rest ih =>
      obtain ⟨states, length, made, each⟩ := ih heard.moved
      refine ⟨s :: states, by rw [List.length_cons, length], ?_,
        List.forall_mem_cons.mpr ⟨⟨heard, here⟩, each⟩⟩
      rw [pieces_append, pieces_consumeAny heard, made]
      rfl

theorem unbroken_of_skippable (skippable : s.skippable = true) : s.token.newlineBefore = false := by
  simp only [State.skippable, Bool.not_eq_true', Bool.or_eq_false_iff] at skippable
  exact skippable.1.1.2

theorem Faces.isKeyword_end (faces : Faces c s) (same : s.token.symbol = "end") :
    s.token.isKeyword "end" = true := by
  have spells := faces.spells
  unfold Token.symbol at same
  unfold Token.isKeyword
  cases kind : s.token.kind
  all_goals rw [kind] at spells same
  case keyword => exact Bool.and_eq_true_iff.mpr ⟨rfl, beq_iff_eq.mpr same⟩
  case punctuation =>
    exact absurd same ((by decide : ∀ mark ∈ punctuationMarks, mark ≠ "end") _ spells)
  all_goals
    simp only [] at same
    exact absurd same (by decide)

theorem Faces.symbol_notMem (faces : Faces c s) (skippable : s.skippable = true) :
    s.token.symbol ∉ ["end", ")", "]", "\x7d"] := by
  simp only [State.skippable, Bool.not_eq_true', Bool.or_eq_false_iff] at skippable
  obtain ⟨⟨_, noEnd⟩, noBracket⟩ := skippable
  intro closes
  rcases List.mem_cons.mp closes with word | bracket
  · rw [faces.isKeyword_end word] at noEnd
    contradiction
  · have mark := (by decide : ∀ sym ∈ [")", "]", "\x7d"], isMark sym = true) _ bracket
    obtain ⟨kind, lit⟩ := Token.mark_of_spells faces.spells mark
    rw [kind, lit, List.contains_iff_mem.mpr bracket] at noBracket
    contradiction

theorem Faces.not_starts (faces : Faces c s) {name : String}
    (refused : s.canStart c (.ref name) = false) :
    ¬c.table.Starts (c.table.first (.ref name)) s.token.symbol := by
  rintro ⟨id, found, has⟩
  have among : s.among (c.table.first (.ref name)) = true := by
    rw [State.among, faces.terminal, found]
    simpa [TermSet.has] using has
  have starts : s.canStart c (.ref name) = true := among
  rw [starts] at refused
  contradiction

theorem Raw.isLeaf (raw : Raw it) : it.toNode.sub.isLeaf = true := by
  rcases raw with ⟨token, _, rfl⟩ | ⟨token, _, rfl⟩
  · rfl
  · rfl

theorem Raw.isError (raw : Raw it) : it.toNode.sub.isError = false := by
  rcases raw with ⟨token, _, rfl⟩ | ⟨token, spells, rfl⟩
  · rfl
  · exact beq_eq_false_iff_ne.mpr (Token.symbol_of_spells spells).1

section

variable {level : List String} {rank : String → Nat} {kind : String}
  (tidy : c.table.Tidy level rank)

include tidy

theorem Production.of_error (production : Production c kind items) (same : kind = errorKind) :
    (∀ it ∈ items, Raw it) ∧ pieces items ≠ [] := by
  have improper (proper : isProper kind = true) : False := (isProper_iff.mp proper).2.2.1 same
  cases production with
  | rule part found visible heard met inner => exact (improper (tidy.rules found visible)).elim
  | suffixed part member gathers => exact (improper (suffix_kind tidy part member).2).elim
  | operation part before found tight one =>
      have own := tidy.parts part
      rw [Expr.tidy, Bool.and_eq_true, Bool.and_eq_true] at own
      exact (improper own.1.1).elim
  | signed part heard mark member inner =>
      have own := tidy.parts part
      rw [Expr.tidy, Bool.and_eq_true] at own
      exact (improper own.1).elim
  | skipped heard some passes =>
      obtain ⟨states, length, made, _⟩ := passes.pieces_eq heard
      refine ⟨passes.raw heard.toFaces, fun none => ?_⟩
      rw [made, List.map_eq_nil_iff] at none
      rw [none, List.length_nil] at length
      omega
  | unexpected heard passes =>
      refine ⟨List.forall_mem_append.mpr
        ⟨heard.toFaces.consumeAny, passes.raw heard.toFaces.moved⟩, ?_⟩
      rw [pieces_append, pieces_consumeAny heard]
      exact List.cons_ne_nil _ _

theorem Made.of_error (made : Made c n) (wrong : n.sub.isError = true) :
    (∀ child ∈ n.children, child.sub.isLeaf = true) ∧ n.pieces ≠ [] := by
  have same : n.kind = errorKind := beq_iff_eq.mp wrong
  cases made with
  | @leaf kind named length token lit scope start own =>
      change kind = errorKind at same
      subst same
      rcases own with symbol | ⟨sym, part⟩
      · exact absurd symbol (by decide +kernel)
      · have own := tidy.parts part
        simp only [Expr.tidy, Bool.and_eq_true] at own
        exact absurd rfl (isProper_iff.mp own.1.1.1).2.2.1
  | missing => contradiction
  | branch production =>
      obtain ⟨raw, some⟩ := production.of_error tidy same
      rw [Node.pieces, Node.children, Subtree.children, children_edges]
      refine ⟨fun child member => ?_, some⟩
      obtain ⟨it, inside, rfl⟩ := List.mem_map.mp member
      exact (raw it inside).isLeaf

variable {lists : List String} (contains : c.table.Contains lists)

include contains

theorem Operations.placed {operand : Expr} {ops : List (String × UInt8)} {least : UInt8}
    {left : List Item} (operations : Operations c kind operand ops least left s)
    (part : c.table.Part (.binary kind operand ops)) : ∀ it ∈ left, Placed c [] it.toNode := by
  cases operations with
  | operand heard one =>
      exact one.places tidy contains.quiet heard (part.only rfl) (contains.parts part)
  | operation before found tight one =>
      have own := tidy.parts part
      rw [Expr.tidy, Bool.and_eq_true, Bool.and_eq_true] at own
      exact List.forall_mem_singleton.mpr (.node own.1.1 List.not_mem_nil)

theorem Gathers.placed {head : Expr} {many : Bool} {all : List (Suffix Expr)} {built : List Item}
    (gathers : Gathers c head many all kind built s)
    (part : c.table.Part (.suffixed head many all)) :
    (kind ≠ "" → isProper kind = true) ∧ ∀ it ∈ built, Placed c [] it.toNode := by
  have own := contains.parts part
  rw [Expr.contained, Bool.and_eq_true, List.all_eq_true] at own
  induction gathers with
  | head heard one =>
      exact ⟨absurd rfl, one.places tidy contains.quiet heard part.head own.1⟩
  | @suffix kind built s x more r before again member starts one ih =>
      obtain ⟨proper, placed⟩ := ih
      refine ⟨fun _ => (suffix_kind tidy part member).2, List.forall_mem_append.mpr ⟨?_, ?_⟩⟩
      · unfold gather
        split
        · exact placed
        · exact placed_withField (placed_close (fun _ => placed)
            fun some => ⟨proper some, List.not_mem_nil⟩) _
      · exact one.places tidy contains.quiet before.heard (part.tail member) (own.2 x member)

theorem Production.placed (production : Production c kind items) (other : kind ∉ lists)
    (right : kind ≠ errorKind) : ∀ it ∈ items, Placed c [] it.toNode := by
  cases production with
  | rule part found visible heard met inner =>
      exact inner.places tidy contains.quiet heard (Table.part_body found)
        (contains.rules found other)
  | suffixed part member gathers => exact (gathers.placed tidy contains part).2
  | operation part before found tight one =>
      have heard := before.heard
      have proper := (operator_proper tidy part (List.mem_map_of_mem (mem_of_power? found))).2
      rw [← (isEnd_of_mark (mark_of_power? found).1).2] at proper
      have operand := contains.parts part
      refine List.forall_mem_append.mpr ⟨List.forall_mem_append.mpr ⟨?_, ?_⟩, ?_⟩
      · exact placed_withField (before.placed tidy contains part) "left"
      · exact placed_consume heard.toFaces proper List.not_mem_nil
      · exact one.places tidy contains.quiet heard.moved part operand
  | signed part heard mark member inner =>
      have own := tidy.parts part
      rw [Expr.tidy, Bool.and_eq_true, List.all_eq_true] at own
      have proper := (Bool.and_eq_true_iff.mp (own.2 _ member)).1
      have operand := contains.parts part
      exact List.forall_mem_append.mpr ⟨placed_consume heard.toFaces proper List.not_mem_nil,
        inner.places tidy contains.quiet heard.moved part operand⟩
  | skipped | unexpected => exact absurd rfl right

end

theorem Placed.of_error {kinds : List String} (placed : Placed c kinds n)
    (wrong : n.sub.isError = true) : ∃ states : List State, states.length ≤ c.window ∧
      n.pieces = states.map State.leaf ∧ ∀ q ∈ states, Heard c q ∧ q.skippable = true := by
  have same : n.kind = errorKind := beq_iff_eq.mp wrong
  cases placed with
  | comment comment =>
      obtain ⟨token, _, rfl⟩ := comment
      contradiction
  | missing => contradiction
  | leaf proper other => exact absurd same (isProper_iff.mp proper).2.2.1
  | node proper other =>
      rw [kind_finish] at same
      exact absurd same (isProper_iff.mp proper).2.2.1
  | skipped heard few passes =>
      obtain ⟨states, length, made, each⟩ := passes.pieces_eq heard
      exact ⟨states, by omega, by rw [pieces_finish, made], each⟩

/-! ### Errors between statements -/

/-- An error around a token that starts no statement, and those behind it that
neither resume the list nor end it. -/
inductive Unexpected (c : Context) (item : Expr) (closers : List String) : Node → Prop
  | error {s r : State} {m : Nat} {items : List Item} (heard : Heard c s)
      (more : s.token.isEnd = false) (refused : s.canStart c item = false)
      (passes : Passes c (fun q => resumes c item closers q = false) m (s.moved c) items r) :
      Unexpected c item closers (r.finish errorKind "" ((s.consumeAny c).1 ++ items)).toNode

theorem Sole.eq_singleton {field other : String} (sole : Sole field items)
    (titled : Titled other items) : ∃ it, items = [it] ∧ isProper it.node.kind = true := by
  obtain ⟨front, it, rfl, others, _⟩ := sole
  obtain ⟨first, rest, made, _, proper⟩ := titled
  cases front with
  | nil =>
      obtain ⟨rfl, _⟩ := List.cons.inj made
      exact ⟨it, rfl, proper⟩
  | cons stray front =>
      -- A comment or an error would be first, where a proper item is.
      obtain ⟨rfl, _⟩ := List.cons.inj made
      obtain ⟨_, noComment, noError, _⟩ := isProper_iff.mp proper
      rcases (others stray List.mem_cons_self).2 with comment | error
      · exact absurd comment noComment
      · exact absurd error noError

theorem unexpected_skipStatement {item : Expr} {closers : List String} (heard : Heard c s)
    (more : s.token.isEnd = false) (refused : s.canStart c item = false) :
    Unexpected c item closers (skipStatement c item closers s).1.toNode := by
  obtain ⟨m, items, q, passes, made, back⟩ := passes_of_skipStatement (Prod.eta _).symm
  rw [made]
  exact .error heard more refused passes

structure Listing (c : Context) (o : Outline) (s : State) : Prop where
  ready : Ready c o s
  heard : Heard c s
  fresh : s.reuse.entries = []

section

variable {o : Outline} {item : Expr} {closers : List String} {field : String}

namespace Listing

theorem flush (listing : Listing c o s) : Listing c o { s with pending := [] } := by
  obtain ⟨frames, stands⟩ := listing.ready.stands
  exact ⟨⟨listing.ready.law, ⟨frames, stands.flush⟩, listing.ready.fit⟩, listing.heard.flush,
    listing.fresh⟩

theorem yields {job : Job} (listing : Listing c o s) (built : Built c s items r)
    (yields : Yields c job s items r) : Listing c o r where
  ready := listing.ready.next built
  heard := yields.heard listing.heard
  fresh := yields.keeps (P := fun q => q.reuse.entries = []) listing.fresh
    (fun kept => by rwa [State.reuse_moved]) (fun kept back => by rwa [back.reuse]) id

theorem skipStatement (listing : Listing c o s) (more : s.token.isEnd = false)
    (pending : s.pending = []) : Listing c o (Parser.skipStatement c item closers s).2 where
  ready := listing.ready.next (skipStatement_built listing.ready more pending).1
  heard := listing.heard.skipStatement (Prod.eta _).symm
  fresh := by
    obtain ⟨m, items, q, passes, _, back⟩ := passes_of_skipStatement (Prod.eta _).symm
    rw [back.reuse]
    refine passes.keeps (Q := fun q => q.reuse.entries = []) ?_ fun kept => ?_
    · rw [State.reuse_moved]
      exact listing.fresh
    · rwa [State.reuse_moved]

theorem reuse?_eq_none (listing : Listing c o s) (calm : c.speculating = false) (field : String) :
    reuse? c field s = none := by
  have alone : Alone false s := Or.inr listing.fresh
  have nothing := alone.reuse?_eq_none (c := c) field
  rwa [← calm] at nothing

end Listing

variable {level : List String} {rank : String → Nat} (tidy : c.table.Tidy level rank)
  (focused : c.table.Focused) (calm : c.speculating = false)

include tidy focused calm

theorem statement_proper {k : Nat} (listing : Listing c o s) (pending : s.pending = [])
    (part : c.table.Part (.ref o.statement))
    (admitted : c.table.admits o c.speculating (.ref o.statement) = true)
    (starts : s.canStart c (.ref o.statement) = true)
    (ran : run k c (.expr (.ref o.statement) field) s = .done items r) :
    ∀ it ∈ markStatement s r items, it.node.isError = false := by
  obtain ⟨frames, stands⟩ := listing.ready.stands
  have titled := run_titled listing.ready.law stands pending _ admitted rfl rfl starts ran
  have yields := yields_of_run calm listing.fresh ran
  have sole := yields.sole tidy focused listing.heard.toFaces part rfl
  obtain ⟨it, rfl, proper⟩ := sole.eq_singleton titled
  have right : it.node.isError = false := beq_eq_false_iff_ne.mpr (isProper_iff.mp proper).2.2.1
  rw [markStatement]
  split
  · refine List.forall_mem_singleton.mpr ?_
    rwa [Subtree.isError, Subtree.kind_asStatement]
  · exact List.forall_mem_singleton.mpr right

/-- The only errors among the statements of a list are around tokens that start
none. -/
theorem statements_errors {k : Nat} (listing : Listing c o s)
    (part : c.table.Part (.ref o.statement))
    (admitted : c.table.admits o c.speculating (.ref o.statement) = true)
    (ran : run k c (.statements field (.ref o.statement) closers) s = .done items r) :
    ∀ it ∈ items, it.node.isError = true → Unexpected c (.ref o.statement) closers it.toNode := by
  induction k generalizing s items with
  | zero => contradiction
  | succ k ih =>
      rw [run, step, statements] at ran
      split at ran
      next =>
        obtain ⟨rfl, _⟩ := Outcome.done.inj ran
        exact fun it none => absurd none List.not_mem_nil
      next going =>
        rw [State.atListEnd, Bool.or_eq_true, not_or, Bool.not_eq_true] at going
        obtain ⟨rest, later, rfl⟩ := Outcome.after_eq_done ran
        refine List.forall_mem_append.mpr ⟨fun it member wrong => ?_, ?_⟩
        · obtain ⟨token, _, rfl⟩ := listing.heard.comments it member
          contradiction
        -- From here on, the comments before the statement are out of the way.
        have flushed := listing.flush
        have more : ({ s with pending := [] } : State).token.isEnd = false := going.1
        have pending : ({ s with pending := [] } : State).pending = [] := rfl
        generalize ({ s with pending := [] } : State) = q at flushed more pending later
        rw [flushed.reuse?_eq_none calm] at later
        simp only [] at later
        split at later
        next starts =>
          obtain ⟨items, next, one, later⟩ := Outcome.bind_eq_done later
          obtain ⟨others, onward, rfl⟩ := Outcome.after_eq_done later
          have right := statement_proper tidy focused calm flushed pending part admitted starts one
          have built := (run_makes flushed.ready (.expr (.ref o.statement) field) admitted one).1
          refine List.forall_mem_append.mpr ⟨fun it member wrong => ?_, ?_⟩
          · rw [right it member] at wrong
            contradiction
          · exact ih (flushed.yields built (yields_of_run calm flushed.fresh one)) onward
        next refused =>
          rw [if_neg (by rw [calm]; exact Bool.false_ne_true)] at later
          obtain ⟨others, onward, rfl⟩ := Outcome.after_eq_done later
          refine List.forall_mem_cons.mpr ⟨fun _ => ?_, ?_⟩
          · exact unexpected_skipStatement flushed.heard more (Bool.eq_false_iff.mpr refused)
          · exact ih (flushed.skipStatement more pending) onward

end

theorem Parsed.unexpected {level : List String} {rank : String → Nat} {o : Outline} {last : State}
    (parsed : Parsed c o .empty items last) (tidy : c.table.Tidy level rank)
    (focused : c.table.Focused) (law : c.table.Lawful o) (calm : c.speculating = false)
    (part : c.table.Part (.ref o.statement)) (child : n ∈ (Node.mk (root c items last) 0).children)
    (wrong : n.sub.isError = true) : Unexpected c (.ref o.statement) [] n := by
  have heard := Heard.initial c .empty
  have listing : Listing c o (State.initial c .empty) := by
    refine ⟨initial_ready law (fun _ _ _ member => nomatch member), heard, ?_⟩
    rw [(Stands.initial c .empty).2.2.1]
    rfl
  obtain ⟨rule, _, _, body, admitted⟩ := law.start
  rw [body, Table.admits, Bool.and_eq_true, ← calm] at admitted
  rw [children_root, List.map_append, List.mem_append, List.mem_map, List.mem_map] at child
  rcases child with ⟨it, member, rfl⟩ | ⟨it, member, rfl⟩
  · -- The start rule is one task, and the list in it the next.
    have ran := parsed.ran
    cases deep : fuel c with
    | zero =>
        rw [deep] at ran
        contradiction
    | succ k =>
        rw [deep, run, step, expression] at ran
        exact statements_errors tidy focused calm listing part admitted.2 ran it member wrong
  · obtain ⟨token, _, rfl⟩ := ((parsed.yields calm).heard heard).comments it member
    contradiction

theorem Unexpected.pieces_eq {name : String} {closers : List String}
    (unexpected : Unexpected c (.ref name) closers n) :
    ∃ (first : State) (rest : List State), n.pieces = first.leaf :: rest.map State.leaf ∧
      ¬c.table.Starts (c.table.first (.ref name)) first.token.symbol ∧
      ∀ q ∈ rest, Heard c q ∧ q.token.isEnd = false ∧ q.token.newlineBefore = false ∧
        q.token.symbol ≠ "end" ∧
        ¬c.table.Starts (c.table.first (.ref name)) q.token.symbol := by
  cases unexpected with
  | @error s r m items heard more refused passes =>
      obtain ⟨rest, _, made, each⟩ := passes.pieces_eq heard.moved
      refine ⟨s, rest, ?_, heard.toFaces.not_starts refused, fun q member => ?_⟩
      · rw [pieces_finish, pieces_append, pieces_consumeAny heard, made]
        rfl
      · obtain ⟨facing, going⟩ := each q member
        have running := isEnd_of_resumes q going
        rw [resumes, Bool.or_eq_false_iff, Bool.or_eq_false_iff, Bool.or_eq_false_iff] at going
        obtain ⟨⟨⟨_, unbroken⟩, refused⟩, noEnd⟩ := going
        refine ⟨facing, running, unbroken, fun same => ?_, facing.toFaces.not_starts refused⟩
        rw [facing.toFaces.isKeyword_end same] at noEnd
        contradiction

/-- Recovery is contained: an error is made of tokens. Where something is
expected, it takes no more of them than may be skipped, and none that closes
another construct or starts a line; between statements, it ends before whatever
may be the next one. -/
theorem recovery_contained (window : Nat) (text : Text) :
    ∃ tree, Parser.parse { window } text = .ok tree ∧
      (∀ n ∈ tree.rootNode.walk, n.sub.isError = true →
        (∀ child ∈ n.children, child.sub.isLeaf = true) ∧ n.pieces ≠ []) ∧
      (∀ p ∈ tree.rootNode.walk, p.kind ∉ Mq.lists →
        ∀ n ∈ p.children, n.sub.isError = true →
          n.pieces.length ≤ window ∧
            ∀ piece ∈ n.pieces, piece.kind ∉ ["end", ")", "]", "\x7d"] ∧ tree.Joined piece) ∧
      (∀ p ∈ tree.rootNode.walk, p.kind = sourceFile →
        ∀ n ∈ p.children, n.sub.isError = true →
          ∃ first rest, n.pieces = first :: rest ∧
            ¬mq.Starts (mq.first (.ref "_statement")) first.kind ∧
            ∀ piece ∈ rest, tree.Joined piece ∧ piece.kind ≠ "end" ∧
              ¬mq.Starts (mq.first (.ref "_statement")) piece.kind) := by
  obtain ⟨items, last, parsed, _⟩ := parse_described window text
  refine ⟨_, parse_eq_of_build (parsed.build_eq Mq.lawful), ?_, ?_, ?_⟩
  · intro n member wrong
    rcases parsed.makes rfl mq_part_start member with rfl | made
    · contradiction
    · exact made.of_error Mq.tidy wrong
  · intro p member other n child wrong
    rcases parsed.makes rfl mq_part_start member with rfl | made
    · exact absurd List.mem_cons_self other
    obtain ⟨inside, production, _, children⟩ := made.produced child
    rw [children] at child
    obtain ⟨it, here, rfl⟩ := List.mem_map.mp child
    have right : p.kind ≠ errorKind := by
      intro same
      rw [((production.of_error Mq.tidy same).1 it here).isError] at wrong
      contradiction
    obtain ⟨states, few, pieces, each⟩ :=
      (production.placed Mq.tidy Mq.contains other right it here).of_error wrong
    rw [pieces, List.length_map]
    refine ⟨few, fun piece among => ?_⟩
    obtain ⟨q, own, rfl⟩ := List.mem_map.mp among
    obtain ⟨heard, skippable⟩ := each q own
    exact ⟨heard.toFaces.symbol_notMem skippable, parsed.joined rfl rfl heard
      (isEnd_of_skippable skippable) (unbroken_of_skippable skippable) rfl⟩
  · intro p member same n child wrong
    rcases parsed.makes rfl mq_part_start member with rfl | made
    · have unexpected := parsed.unexpected Mq.tidy Mq.focused Mq.lawful rfl
        (mq_part_start.only rfl) child wrong
      obtain ⟨first, rest, pieces, refused, each⟩ := unexpected.pieces_eq
      refine ⟨first.leaf, rest.map State.leaf, pieces, refused, fun piece among => ?_⟩
      obtain ⟨q, own, rfl⟩ := List.mem_map.mp among
      obtain ⟨heard, more, unbroken, noEnd, refused⟩ := each q own
      exact ⟨parsed.joined rfl rfl heard more unbroken rfl, noEnd, refused⟩
    · -- Nothing refers to the rule of a whole text.
      obtain ⟨_, production, _⟩ := made.produced child
      rw [same] at production
      have plain {e : Expr} : mq.Part e → sourceFile ∉ e.operatorKinds :=
        fun ⟨r, listed, inside⟩ => (Mq.outermost r listed e inside).1
      rcases production.ruled_or_trailed plain (by decide) with ruled | trailed
      · obtain ⟨part, found, _, own, _⟩ := ruled
        obtain ⟨outer, listed, inside⟩ := part
        obtain ⟨known, rfl⟩ := Table.rule?_eq_some found
        have other := (Mq.outermost outer listed _ inside).2.2 _ known own
        rw [Expr.refersTo, beq_self_eq_true] at other
        exact Bool.noConfusion other
      · obtain ⟨⟨outer, listed, inside⟩, here, _⟩ := trailed
        exact absurd here (Mq.outermost outer listed _ inside).2.1

end Parser

end MqTree
