import MqTree.Proofs.Grammar.Fields
import MqTree.Proofs.Parser.Hearing

namespace MqTree

/-! Every node of a tree by itself: how it came about, and what its children
were when it was made. -/

namespace Parser

def Item.Every (P : Node → Prop) (it : Item) : Prop := ∀ n ∈ it.toNode.walk, P n

def operation (c : Context) (s : State) (left right : List Item) : List Item :=
  withField "left" left ++ (s.consume c "operator" s.token.symbol false).1 ++ right

/-- What stands on the left of the next operator: an operand, or all operations
so far, the last one outermost. -/
inductive Operations (c : Context) (kind : String) (operand : Expr) (ops : List (String × UInt8))
    (least : UInt8) : List Item → State → Prop
  | operand (heard : Heard c s) (one : Yields c (.task (.expr operand "")) s left r) :
      Operations c kind operand ops least left r
  | operation (before : Operations c kind operand ops least left s)
      (found : power? ops s = some power) (tight : least ≤ power)
      (one : Yields c (.task (.operand kind operand ops (power + 1) "right")) (s.moved c) right r) :
      Operations c kind operand ops least [r.finish kind "" (operation c s left right)] r

inductive Gathers (c : Context) (head : Expr) (many : Bool) (all : List (Suffix Expr)) :
    String → List Item → State → Prop
  | head (heard : Heard c s) (one : Yields c (.task (.expr head "")) s items r) :
      Gathers c head many all "" items r
  | suffix (before : Gathers c head many all kind built s) (again : many = true ∨ kind = "")
      (member : x ∈ all) (starts : s.canStart c x.tail = true)
      (one : Yields c (.task (.expr x.tail "")) s more r) :
      Gathers c head many all x.kind (gather s kind x built ++ more) r

inductive Production (c : Context) : String → List Item → Prop
  | rule {name : String} (part : c.table.Part (.ref name))
      (found : c.table.rule? name = some rule) (visible : rule.hidden = false)
      (heard : Heard c s) (met : s.meets c (.ref name) = true)
      (inner : Yields c (.task (.expr rule.body "")) s items r) :
      Production c rule.nodeKind items
  | suffixed (part : c.table.Part (.suffixed head many all)) (member : x ∈ all)
      (gathers : Gathers c head many all x.kind built s) : Production c x.kind built
  | operation (part : c.table.Part (.binary kind operand ops))
      (before : Operations c kind operand ops least left s) (found : power? ops s = some power)
      (tight : least ≤ power)
      (one : Yields c (.task (.operand kind operand ops (power + 1) "right")) (s.moved c) right r) :
      Production c kind (operation c s left right)
  | signed (part : c.table.Part (.unary kind ops operand)) (heard : Heard c s)
      (mark : s.token.kind = .punctuation) (member : s.token.lit ∈ ops)
      (inner : Yields c (.task (.expr (.unary kind ops operand) "operand")) (s.moved c) items r) :
      Production c kind ((s.consume c "operator" s.token.lit false).1 ++ items)
  | skipped (heard : Heard c s) (some : 0 < n)
      (passes : Passes c (fun q => q.skippable = true) n s items r) : Production c errorKind items
  | unexpected (heard : Heard c s)
      (passes : Passes c (fun q => resumes c item closers q = false) n (s.moved c) items r) :
      Production c errorKind ((s.consumeAny c).1 ++ items)

inductive Made (c : Context) : Node → Prop
  | leaf (own : kind ∈ tokenSymbols ∨ ∃ sym, c.table.Part (.leaf kind sym)) :
      Made c ⟨.leaf kind named length token lit scope, start⟩
  | missing : Made c ⟨.missing label scope, start⟩
  | branch (production : Production c kind items) :
      Made c ⟨.branch kind named length (items.map (Item.edge start)) scope, start⟩

variable {c : Context} {s r : State} {items : List Item} {it : Item} {field kind : String}

theorem mark_of_power? {ops : List (String × UInt8)} {power : UInt8}
    (found : power? ops s = some power) :
    s.token.kind = .punctuation ∧ ops.lookup s.token.lit = some power := by
  unfold power? at found
  split at found
  next mark => exact ⟨beq_iff_eq.mp mark, found⟩
  next => contradiction

theorem mem_of_power? {ops : List (String × UInt8)} {power : UInt8}
    (found : power? ops s = some power) : (s.token.lit, power) ∈ ops := by
  obtain ⟨before, after, split, _⟩ := List.lookup_eq_some_iff.mp (mark_of_power? found).2
  rw [split]
  exact List.mem_append_right _ List.mem_cons_self

theorem Operations.heard {operand : Expr} {ops : List (String × UInt8)} {least : UInt8}
    {left : List Item} (operations : Operations c kind operand ops least left s) : Heard c s := by
  induction operations with
  | operand heard one => exact one.heard heard
  | operation before found tight one ih => exact one.heard ih.moved

theorem Gathers.heard {head : Expr} {many : Bool} {all : List (Suffix Expr)} {built : List Item}
    (gathers : Gathers c head many all kind built s) : Heard c s := by
  induction gathers with
  | head heard one => exact one.heard heard
  | suffix before again member starts one ih => exact one.heard ih

def Job.Operates (c : Context) (s : State) (items : List Item) (r : State) : Job → Prop
  | .task (.operators kind operand ops least left field) =>
      Operations c kind operand ops least left s →
        ∃ last, items = withField field last ∧ Operations c kind operand ops least last r ∧
          ∀ power, power? ops r = some power → power < least
  | _ => True

theorem Yields.operates {job : Job} (yields : Yields c job s items r) :
    job.Operates c s items r := by
  induction yields with
  | noOperator loose => exact fun before => ⟨_, rfl, before, loose⟩
  | operator mark member found tight one rest first second =>
      exact fun before => second (.operation before found tight one)
  | _ => trivial

theorem Yields.operations {operand : Expr} {ops : List (String × UInt8)} {least : UInt8}
    (yields : Yields c (.task (.operand kind operand ops least field)) s items r)
    (heard : Heard c s) :
    ∃ last, items = withField field last ∧ Operations c kind operand ops least last r ∧
      ∀ power, power? ops r = some power → power < least := by
  cases yields with
  | operand one rest => exact rest.operates (.operand heard one)

theorem made_leaf {named : Bool} {token : Token}
    (own : kind ∈ tokenSymbols ∨ ∃ sym, c.table.Part (.leaf kind sym)) :
    Item.Every (Made c) ⟨field, token.start, .ofToken kind named token⟩ := by
  intro n member
  rw [Item.toNode, Subtree.ofToken, Node.walk_leaf, List.mem_singleton] at member
  subst member
  exact .leaf own

theorem children_finish (s : State) (kind field : String) (items : List Item) :
    ∃ length lookahead, (s.finish kind field items).node =
      .node kind true length lookahead
        (items.map (Item.edge (s.finish kind field items).start)) := by
  cases items with
  | nil => exact ⟨0, 0, rfl⟩
  | cons first rest => exact ⟨_, _, rfl⟩

theorem toNode_finish (s : State) (kind field : String) (items : List Item) :
    (s.finish kind field items).toNode.children = items.map Item.toNode := by
  obtain ⟨length, lookahead, made⟩ := children_finish s kind field items
  rw [Node.children, Item.toNode, made]
  exact children_edges ⟨_, (s.finish kind field items).start⟩ items

theorem made_finish (production : Production c kind items)
    (below : ∀ it ∈ items, it.Every (Made c)) (s : State) (field : String) :
    (s.finish kind field items).Every (Made c) := by
  intro n member
  rw [Node.walk_eq, toNode_finish, List.mem_cons, List.mem_flatMap] at member
  rcases member with rfl | ⟨_, inside, here⟩
  · obtain ⟨length, lookahead, made⟩ := children_finish s kind field items
    rw [Item.toNode, made]
    exact .branch production
  · obtain ⟨it, child, rfl⟩ := List.mem_map.mp inside
    exact below it child n here

theorem Made.produced {n child : Node} (made : Made c n) (member : child ∈ n.children) :
    ∃ items, Production c n.kind items ∧ n.sub.children = items.map (Item.edge n.start) ∧
      n.children = items.map Item.toNode := by
  cases made with
  | leaf | missing => exact absurd member List.not_mem_nil
  | branch production => exact ⟨_, production, rfl, children_edges _ _⟩

theorem mem_of_withField (member : it ∈ withField field items) :
    ∃ own ∈ items, it.toNode = own.toNode := by
  unfold withField at member
  split at member
  · exact ⟨it, member, rfl⟩
  · obtain ⟨own, here, rfl⟩ := List.mem_map.mp member
    refine ⟨own, here, ?_⟩
    rw [Item.toNode, Item.node_withField, Item.start_withField]
    rfl

theorem made_withField (below : ∀ it ∈ items, it.Every (Made c)) (field : String) :
    ∀ it ∈ withField field items, it.Every (Made c) := by
  intro it member n inside
  obtain ⟨own, here, same⟩ := mem_of_withField member
  rw [same] at inside
  exact below own here n inside

theorem Made.asStatement {sub : Subtree} {start : Int} (made : Made c ⟨sub, start⟩)
    (lookahead : Int) : Made c ⟨sub.asStatement lookahead, start⟩ := by
  cases made with
  | leaf own => exact .leaf own
  | missing => exact .missing
  | branch production => exact .branch production

theorem made_markStatement (below : ∀ it ∈ items, it.Every (Made c)) :
    ∀ it ∈ markStatement s r items, it.Every (Made c) := by
  unfold markStatement
  split
  next it =>
    split
    · have own := below it (List.mem_singleton_self it)
      refine List.forall_mem_singleton.mpr fun n member => ?_
      rcases Node.mem_walk.mp member with rfl | ⟨edge, inside, here⟩
      · exact (own it.toNode (Node.mem_walk_self _)).asStatement _
      · rw [Item.toNode, Subtree.children_asStatement] at inside
        exact own n (Node.mem_walk.mpr (Or.inr ⟨edge, inside, here⟩))
    · exact below
  next => exact below

theorem IsComment.made (comment : IsComment it) : it.Every (Made c) := by
  obtain ⟨token, _, rfl⟩ := comment
  exact made_leaf (Or.inl (by decide +kernel))

theorem made_consume {other : String} {named : Bool} (faces : Faces c s)
    (own : kind ∈ tokenSymbols ∨ ∃ sym, c.table.Part (.leaf kind sym)) :
    ∀ it ∈ (s.consume c other kind named).1, it.Every (Made c) :=
  forall_mem_consume faces (fun _ comment => comment.made) (made_leaf own)

theorem made_symbol {other sym : String} {named : Bool} (heard : Heard c s)
    (symbol : s.token.symbol = sym) :
    ∀ it ∈ (s.consume c other sym named).1, it.Every (Made c) := by
  subst symbol
  exact made_consume heard.toFaces (Or.inl (Token.symbol_mem heard.spells))

theorem made_operation {left right : List Item} (heard : Heard c s)
    (before : ∀ it ∈ left, it.Every (Made c)) (behind : ∀ it ∈ right, it.Every (Made c)) :
    ∀ it ∈ operation c s left right, it.Every (Made c) :=
  List.forall_mem_append.mpr
    ⟨List.forall_mem_append.mpr ⟨made_withField before "left", made_symbol heard rfl⟩, behind⟩

theorem Raw.made (raw : Raw it) : it.Every (Made c) := by
  rcases raw with comment | ⟨token, spells, rfl⟩
  · exact comment.made
  · exact made_leaf (Or.inl (Token.symbol_mem spells))

theorem made_skipTo {e : Expr} {error : Item} (heard : Heard c s)
    (found : skipTo c e s = (some error, r)) : error.Every (Made c) := by
  obtain ⟨_, items, q, some, _, passes, rfl, _⟩ := passes_of_skipTo found
  exact made_finish (.skipped heard some passes)
    (fun it member => (passes.raw heard.toFaces it member).made) q ""

theorem made_skipStatement {item : Expr} {closers : List String} {error : Item} (heard : Heard c s)
    (skip : skipStatement c item closers s = (error, r)) : error.Every (Made c) := by
  obtain ⟨_, items, q, passes, rfl, _⟩ := passes_of_skipStatement skip
  refine made_finish (.unexpected heard passes) (List.forall_mem_append.mpr ⟨?_, ?_⟩) q ""
  · exact fun it member => (heard.toFaces.consumeAny it member).made
  · exact fun it member => (passes.raw heard.toFaces.moved it member).made

section

variable {head : Expr} {many : Bool} {all : List (Suffix Expr)} {built : List Item}

theorem Gathers.made_close (gathers : Gathers c head many all kind built r)
    (part : c.table.Part (.suffixed head many all))
    (below : ∀ it ∈ built, it.Every (Made c)) (s : State) :
    ∀ it ∈ closeSuffixes s kind built, it.Every (Made c) := by
  unfold closeSuffixes
  split
  · exact below
  next some =>
    cases gathers with
    | head => contradiction
    | suffix before again member starts one =>
        have production := Production.suffixed part member (.suffix before again member starts one)
        exact List.forall_mem_singleton.mpr (made_finish production below s "")

theorem Gathers.made_gather (gathers : Gathers c head many all kind built r)
    (part : c.table.Part (.suffixed head many all))
    (below : ∀ it ∈ built, it.Every (Made c)) (s : State) (x : Suffix Expr) :
    ∀ it ∈ gather s kind x built, it.Every (Made c) := by
  unfold gather
  split
  · exact below
  · exact made_withField (gathers.made_close part below s) _

end

def Job.Makes (c : Context) (s : State) (items : List Item) : Job → Prop
  | .task (.suffixes many all kind built _) =>
      ∀ head, c.table.Part (.suffixed head many all) → Gathers c head many all kind built s →
        (many = true ∨ kind = "") → (∀ it ∈ built, it.Every (Made c)) →
          ∀ it ∈ items, it.Every (Made c)
  | .task (.operators kind operand ops least left _) =>
      Operations c kind operand ops least left s → (∀ it ∈ left, it.Every (Made c)) →
        ∀ it ∈ items, it.Every (Made c)
  | _ => ∀ it ∈ items, it.Every (Made c)

theorem Yields.makes {job : Job} (yields : Yields c job s items r) (heard : Heard c s)
    (known : job.Known c.table) : job.Makes c s items := by
  induction yields with
  | tok more symbol word => exact made_symbol heard symbol
  | leaf more symbol => exact made_consume heard.toFaces (Or.inr ⟨_, known⟩)
  | recovered _ inner ih => exact ih heard known
  | placeholder returns label =>
      refine List.forall_mem_singleton.mpr fun n member => ?_
      rw [List.mem_singleton.mp member]
      exact .missing
  | skipped found inner ih =>
      exact List.forall_mem_cons.mpr ⟨made_skipTo heard found, ih (heard.skipTo found) known⟩
  | spliced found hidden inner ih => exact ih heard (Table.part_body found)
  | node found visible inner ih =>
      have below := ih heard (Table.part_body found)
      exact List.forall_mem_singleton.mpr
        (made_finish (.rule known found visible heard (by assumption) inner) below _ _)
  | seq inner ih => exact ih heard fun e member => known.inner member
  | nil | absent | noElement | ended => exact fun it none => absurd none List.not_mem_nil
  | enough least => exact fun it none => absurd none List.not_mem_nil
  | cons head rest first second =>
      obtain ⟨atHead, behind⟩ := List.forall_mem_cons.mp known
      exact List.forall_mem_append.mpr ⟨first heard atHead, second (head.heard heard) behind⟩
  | choice member inner ih => exact ih heard (known.inner member)
  | ordered member returns inner ih => exact ih (heard.returns returns) (known.inner member)
  | present inner ih | immediate _ inner ih | distant _ inner ih | sameLine _ inner ih
  | broken _ inner ih | field inner ih | unsigned inner ih | lastElement inner ih =>
      exact ih heard (known.only rfl)
  | rep inner ih | list inner ih | stmts inner ih | binary inner ih => exact ih heard known
  | copy one rest first second | forced one rest first second =>
      exact List.forall_mem_append.mpr
        ⟨first heard (known.only rfl), second (one.heard heard) known⟩
  | separated one symbol rest first second =>
      have facing := one.heard heard
      exact List.forall_mem_append.mpr ⟨first heard (known.only rfl),
        List.forall_mem_append.mpr ⟨made_symbol facing symbol, second facing.moved known⟩⟩
  | trailing one symbol ih =>
      exact List.forall_mem_append.mpr
        ⟨ih heard (known.only rfl), made_symbol (one.heard heard) symbol⟩
  | dangling one symbol rest first second =>
      have facing := one.heard heard
      exact List.forall_mem_append.mpr ⟨first heard (known.only rfl),
        List.forall_mem_append.mpr
          ⟨made_symbol facing symbol, second facing.moved (known.only rfl)⟩⟩
  | statement one rest first second =>
      have items := first heard.flush (known.only rfl)
      exact List.forall_mem_append.mpr ⟨fun it member => (heard.comments it member).made,
        List.forall_mem_append.mpr
          ⟨made_markStatement items, second (one.heard heard.flush) known⟩⟩
  | unexpected skip rest ih =>
      have facing := heard.flush.skipStatement skip
      exact List.forall_mem_append.mpr ⟨fun it member => (heard.comments it member).made,
        List.forall_mem_cons.mpr ⟨made_skipStatement heard.flush skip, ih facing known⟩⟩
  | suffixed front rest first second =>
      -- The head is the first thing gathered; what the loop closes later has a history.
      exact second (front.heard heard) ⟨_, known⟩ _ known (.head heard front) (Or.inr rfl)
        (first heard known.head)
  | noSuffix =>
      exact fun head part gathers _ below => made_withField (gathers.made_close part below _) _
  | suffix member starts one rest first second =>
      intro head part gathers _ below
      have tail := first heard (part.tail member)
      exact second (one.heard heard) known head part
        (.suffix gathers (Or.inl rfl) member starts one) (Or.inl rfl)
        (List.forall_mem_append.mpr ⟨gathers.made_gather part below _ _, tail⟩)
  | onlySuffix member starts one ih =>
      intro head part gathers again below
      have tail := ih heard (part.tail member)
      have next := Gathers.suffix gathers again member starts one
      exact made_withField (next.made_close part
        (List.forall_mem_append.mpr ⟨gathers.made_gather part below _ _, tail⟩) _) _
  | operand one rest first second =>
      exact second (one.heard heard) known (.operand heard one) (first heard (known.only rfl))
  | noOperator => exact fun _ below => made_withField below _
  | operator mark member found tight one rest first second =>
      intro before below
      have production := Production.operation known before found tight one
      have children := made_operation heard below (first heard.moved known)
      exact second (one.heard heard.moved) known (.operation before found tight one)
        (List.forall_mem_singleton.mpr (made_finish production children _ ""))
  | signed mark member inner ih =>
      refine List.forall_mem_singleton.mpr
        (made_finish (.signed known heard mark member inner) ?_ _ _)
      exact List.forall_mem_append.mpr
        ⟨made_symbol heard (isEnd_of_mark mark).2, ih heard.moved known⟩

theorem Parsed.children_root (c : Context) (items : List Item) (last : State) :
    (Node.mk (root c items last) 0).children = (items ++ last.pending).map Item.toNode :=
  children_edges ⟨root c items last, 0⟩ (items ++ last.pending)

/-- All but the root of a tree is made somehow. -/
theorem Parsed.makes {o : Outline} {last : State} (parsed : Parsed c o .empty items last)
    (calm : c.speculating = false) (part : c.table.Part (.stmts "" (.ref o.statement) []))
    {n : Node} (member : n ∈ (Node.mk (root c items last) 0).walk) :
    n = ⟨root c items last, 0⟩ ∨ Made c n := by
  have yields := parsed.yields calm
  have heard := Heard.initial c .empty
  have below : ∀ it ∈ items ++ last.pending, it.Every (Made c) :=
    List.forall_mem_append.mpr ⟨yields.makes heard part, fun it comment =>
      ((yields.heard heard).comments it comment).made⟩
  rw [Node.walk_eq, children_root, List.mem_cons, List.mem_flatMap] at member
  refine member.imp id ?_
  rintro ⟨_, inside, here⟩
  obtain ⟨it, child, rfl⟩ := List.mem_map.mp inside
  exact below it child n here

end Parser

end MqTree
