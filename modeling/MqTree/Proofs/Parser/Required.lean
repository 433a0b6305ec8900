import MqTree.Proofs.Grammar.Fields
import MqTree.Proofs.Parser.Described

namespace MqTree

/-- Whether all nodes of a kind have one child in a field. -/
def Subtree.Fills (kind field : String) (sub : Subtree) : Prop :=
  ∀ start, ∀ p ∈ (Node.mk sub start).walk, p.kind = kind → (p.childrenInField field).length = 1

namespace Parser

/-! Nodes have the fields that are required of them, whatever is wrong with a
text: where an expression stands for one node, one is made that can take the
field, and the comments and errors before it do not take it. -/

variable {c : Context} {level : List String} {rank : String → Nat} {s r q : State}
  {items : List Item} {it : Item} {field g : String}

def Stray (it : Item) : Prop :=
  it.field = "" ∧ (it.node.kind = commentSymbol ∨ it.node.kind = errorKind)

def Sole (field : String) (items : List Item) : Prop :=
  ∃ front it, items = front ++ [it] ∧ (∀ other ∈ front, Stray other) ∧ it.field = field ∧
    it.node.kind ≠ commentSymbol ∧ it.node.kind ≠ errorKind

theorem Stray.withField (stray : Stray it) (field : String) : it.withField field = it := by
  have keeps : it.takesField = false := by
    rcases stray.2 with comment | error
    · simp [Item.takesField, comment]
    · simp [Item.takesField, error]
  rw [Item.withField, keeps, if_neg Bool.false_ne_true]

theorem Stray.field_ne (stray : Stray it) (named : g ≠ "") : it.field ≠ g := by
  rw [stray.1]
  exact named.symm

theorem IsComment.stray (comment : IsComment it) : Stray it := by
  obtain ⟨token, kind, rfl⟩ := comment
  exact ⟨rfl, Or.inl rfl⟩

theorem Wrong.stray (wrong : Wrong it) : Stray it := by
  obtain ⟨last, skipped, rfl, _⟩ := wrong
  obtain ⟨same, unnamed⟩ := ref_finish last errorKind "" skipped
  exact ⟨unnamed, Or.inr (congrArg TypeRef.type same)⟩

namespace Sole

theorem behind (sole : Sole field items) (stray : Stray it) : Sole field (it :: items) := by
  obtain ⟨front, last, rfl, others, own⟩ := sole
  exact ⟨it :: front, last, rfl, List.forall_mem_cons.mpr ⟨stray, others⟩, own⟩

theorem consume {kind : String} {named : Bool} (faces : Faces c s) (proper : isProper kind = true) :
    Sole field (s.consume c field kind named).1 := by
  rw [State.consume_fst]
  exact ⟨s.pending, _, rfl, fun it member => (faces.comments it member).stray, rfl,
    (isProper_iff.mp proper).2.1, (isProper_iff.mp proper).2.2.1⟩

theorem finish {kind : String} (proper : isProper kind = true) (s : State) (field : String)
    (items : List Item) : Sole field [s.finish kind field items] := by
  obtain ⟨same, named⟩ := ref_finish s kind field items
  have own : (s.finish kind field items).node.kind = kind := congrArg TypeRef.type same
  refine ⟨[], _, rfl, fun _ none => absurd none List.not_mem_nil, named, ?_⟩
  rw [own]
  exact ⟨(isProper_iff.mp proper).2.1, (isProper_iff.mp proper).2.2.1⟩

theorem withField (sole : Sole "" items) (field : String) : Sole field (withField field items) := by
  unfold Parser.withField
  split
  next none => rwa [none]
  next =>
    obtain ⟨front, it, rfl, others, unnamed, noComment, noError⟩ := sole
    have same : front.map (Item.withField field) = front :=
      (List.map_congr_left fun other member => (others other member).withField field).trans
        front.map_id
    have takes : it.takesField = true := by simp [Item.takesField, unnamed, noComment, noError]
    rw [List.map_append, same]
    exact ⟨front, _, rfl, others, by rw [Item.withField, if_pos takes],
      by rwa [Item.node_withField], by rwa [Item.node_withField]⟩

theorem field_eq (sole : Sole field items) (member : it ∈ items) :
    it.field = "" ∨ it.field = field := by
  obtain ⟨front, last, rfl, others, own, _⟩ := sole
  rcases List.mem_append.mp member with before | here
  · exact Or.inl (others it before).1
  · rw [List.mem_singleton.mp here]
    exact Or.inr own

end Sole

def tally (g : String) (items : List Item) : Nat := items.countP (·.field == g)

theorem tally_append (g : String) (items more : List Item) :
    tally g (items ++ more) = tally g items + tally g more :=
  List.countP_append

theorem tally_eq_zero : tally g items = 0 ↔ ∀ it ∈ items, it.field ≠ g := by
  simp [tally, List.countP_eq_zero]

theorem Sole.tally_eq (sole : Sole field items) (named : g ≠ "") :
    tally g items = if field = g then 1 else 0 := by
  obtain ⟨front, it, rfl, others, rfl, _⟩ := sole
  have none : tally g front = 0 :=
    tally_eq_zero.mpr fun other member => (others other member).field_ne named
  rw [tally_append, none, Nat.zero_add, tally, List.countP_singleton]
  simp only [beq_iff_eq]

def Based (head : Expr) (many : Bool) (all : List (Suffix Expr)) (kind : String)
    (built : List Item) : Prop :=
  if kind = "" then head.single = true → Sole "" built
  else many = true ∧ ∃ x ∈ all, x.kind = kind

section

variable {head : Expr} {many : Bool} {all : List (Suffix Expr)} {kind : String}
  {built : List Item}

theorem Based.close (tidy : c.table.Tidy level rank)
    (part : c.table.Part (.suffixed head many all)) (based : Based head many all kind built)
    (single : head.single = true) : Sole "" (closeSuffixes s kind built) := by
  unfold Based at based
  unfold closeSuffixes
  split at based
  next none =>
    rw [if_pos none]
    exact based single
  next some =>
    obtain ⟨_, x, member, rfl⟩ := based
    rw [if_neg some]
    exact .finish (suffix_kind tidy part member).2 s "" built

theorem Based.gather (based : Based head false all kind built) (single : head.single = true)
    (s : State) (x : Suffix Expr) : Sole x.headField (gather s kind x built) := by
  unfold Based at based
  split at based
  next none =>
    rw [Parser.gather, closeSuffixes, none, if_neg (by simp), if_pos rfl]
    exact (based single).withField _
  next => exact absurd based.1 Bool.false_ne_true

theorem Based.more (tidy : c.table.Tidy level rank) (part : c.table.Part (.suffixed head true all))
    {x : Suffix Expr} (member : x ∈ all) (built : List Item) :
    Based head true all x.kind built := by
  rw [Based, if_neg (suffix_kind tidy part member).1]
  exact ⟨rfl, x, member, rfl⟩

end

/-- A job for one node makes one item for it. -/
def Job.Single (t : Table) (items : List Item) : Job → Prop
  | .task (.expr e field) | .recover e field => e.single = true → Sole field items
  | .task (.suffixes many all kind built field) =>
      ∀ head, t.Part (.suffixed head many all) → Based head many all kind built →
        head.single = true → Sole field items
  | .task (.operand _ operand _ _ field) => operand.single = true → Sole field items
  | .task (.operators _ _ _ _ left field) => Sole "" left → Sole field items
  | _ => True

theorem Yields.sole {job : Job} (yields : Yields c job s items r)
    (tidy : c.table.Tidy level rank) (focused : c.table.Focused) (faces : Faces c s)
    (known : job.Known c.table) : job.Single c.table items := by
  induction yields with
  | tok more symbol word => exact fun _ => .consume faces (tidy.parts known)
  | leaf more symbol =>
      have own := tidy.parts known
      simp only [Expr.tidy, Bool.and_eq_true] at own
      exact fun _ => .consume faces own.1.1.1
  | recovered _ inner ih => exact ih faces known
  | placeholder returns label =>
      exact fun _ => ⟨[], _, rfl, fun _ none => absurd none List.not_mem_nil, rfl,
        (by decide : missingKind ≠ commentSymbol), (by decide : missingKind ≠ errorKind)⟩
  | skipped found inner ih =>
      obtain ⟨facing, wrong⟩ := faces.skipTo found
      exact fun single => (ih facing known single).behind wrong.stray
  | spliced found hidden inner ih =>
      exact fun _ => ih faces (Table.part_body found) (focused found hidden)
  | node found visible inner ih => exact fun _ => .finish (tidy.rules found visible) _ _ _
  | choice member inner ih =>
      exact fun single => ih faces (known.inner member) (Expr.allSingle_eq_true.mp single _ member)
  | ordered member returns inner ih =>
      exact fun single => ih (faces.returns returns) (known.inner member)
        (Expr.allSingle_eq_true.mp single _ member)
  | immediate _ inner ih | distant _ inner ih | sameLine _ inner ih | broken _ inner ih
  | unsigned inner ih => exact ih faces (known.only rfl)
  | suffixed front rest first second =>
      intro single
      refine second (front.faces faces) ⟨_, known⟩ _ known ?_ single
      rw [Based, if_pos rfl]
      exact first faces known.head
  | noSuffix => exact fun head part based single => (based.close tidy part single).withField _
  | suffix member _ one rest first second =>
      exact fun head part _ single => second (one.faces faces) known head part
        (.more tidy part member _) single
  | onlySuffix member _ one ih =>
      intro head part _ _
      obtain ⟨some, proper⟩ := suffix_kind tidy part member
      rw [closeSuffixes, if_neg some]
      exact (Sole.finish proper _ "" _).withField _
  | binary inner ih => exact ih faces known
  | operand one rest first second =>
      exact fun single => second (one.faces faces) known (first faces (known.only rfl) single)
  | noOperator => exact fun left => left.withField _
  | operator mark member _ _ one rest first second =>
      have own := tidy.parts known
      rw [Expr.tidy, Bool.and_eq_true, Bool.and_eq_true] at own
      exact fun _ => second (one.faces faces.moved) known (.finish own.1.1 _ "" _)
  | signed mark member inner ih =>
      have own := tidy.parts known
      rw [Expr.tidy, Bool.and_eq_true] at own
      exact fun _ => .finish own.1 _ _ _
  | seq | present | rep | list | field | stmts => exact fun single => Bool.noConfusion single
  | absent | noElement => exact fun single => Bool.noConfusion single
  | nil | cons | enough | copy | forced | lastElement | separated | trailing | dangling | ended
  | statement | unexpected => trivial

/-! ### Items under a field -/

def Job.mentions (g : String) : Job → Bool
  | .task (.expr e field) | .recover e field | .task (.copies e _ _ field)
  | .task (.elements e _ _ field) | .task (.statements field e _) => field == g || e.mentions g
  | .sequence es field => field == g || Expr.anyMentions g es
  | _ => true

theorem Job.mentions_eq_false {e : Expr} :
    (Job.task (.expr e field)).mentions g = false ↔ field ≠ g ∧ e.mentions g = false := by
  rw [Job.mentions, Bool.or_eq_false_iff, beq_eq_false_iff_ne]

theorem Job.mentions_alternative {alts : List Expr} {alt : Expr} (member : alt ∈ alts)
    (silent : (Job.task (.expr (.choice alts) field)).mentions g = false) :
    (Job.task (.expr alt field)).mentions g = false := by
  obtain ⟨differs, none⟩ := Job.mentions_eq_false.mp silent
  exact Job.mentions_eq_false.mpr ⟨differs, Expr.anyMentions_eq_false.mp none _ member⟩

theorem Sole.lacks (sole : Sole field items) (named : g ≠ "") (differs : field ≠ g) :
    ∀ it ∈ items, it.field ≠ g := by
  intro it member same
  rcases sole.field_eq member with unnamed | own
  · exact named (same.symm.trans unnamed)
  · exact differs (own.symm.trans same)

theorem consume_lacks {kind : String} {withName : Bool} (faces : Faces c s) (named : g ≠ "") :
    ∀ it ∈ (s.consume c "" kind withName).1, it.field ≠ g :=
  forall_mem_consume faces (fun _ comment => comment.stray.field_ne named) named.symm

theorem comments_lack (faces : Faces c s) (named : g ≠ "") : ∀ it ∈ s.pending, it.field ≠ g :=
  fun it member => (faces.comments it member).stray.field_ne named

theorem field_markStatement (lacks : ∀ it ∈ items, it.field ≠ g) :
    ∀ it ∈ markStatement s r items, it.field ≠ g := by
  unfold markStatement
  split
  next it =>
    split
    · exact List.forall_mem_singleton.mpr (lacks it (List.mem_singleton_self it))
    · exact lacks
  next => exact lacks

/-- Only what is named after a field gets it. -/
theorem Yields.lacks {job : Job} (yields : Yields c job s items r)
    (tidy : c.table.Tidy level rank) (focused : c.table.Focused) (faces : Faces c s)
    (known : job.Known c.table) (named : g ≠ "") (silent : job.mentions g = false) :
    ∀ it ∈ items, it.field ≠ g := by
  -- What stands for one node is an item of which the field is known.
  have alone {e : Expr} {field : String} {items : List Item} {s r : State}
      (yields : Yields c (.task (.expr e field)) s items r) (faces : Faces c s)
      (part : c.table.Part e) (single : e.single = true) (differs : field ≠ g) :
      ∀ it ∈ items, it.field ≠ g :=
    (yields.sole tidy focused faces part single).lacks named differs
  induction yields with
  | tok more symbol word =>
      exact alone (.tok more symbol word) faces known rfl (Job.mentions_eq_false.mp silent).1
  | leaf more symbol =>
      exact alone (.leaf more symbol) faces known rfl (Job.mentions_eq_false.mp silent).1
  | spliced found hidden inner ih =>
      exact alone (.spliced found hidden inner) faces known rfl (Job.mentions_eq_false.mp silent).1
  | node found visible inner ih =>
      exact alone (.node (g := by assumption) found visible inner) faces known rfl
        (Job.mentions_eq_false.mp silent).1
  | suffixed front rest =>
      obtain ⟨differs, single⟩ := Job.mentions_eq_false.mp silent
      exact alone (.suffixed front rest) faces known (Bool.not_inj (y := true) single) differs
  | binary inner =>
      obtain ⟨differs, single⟩ := Job.mentions_eq_false.mp silent
      exact alone (.binary inner) faces known (Bool.not_inj (y := true) single) differs
  | unsigned inner =>
      obtain ⟨differs, single⟩ := Job.mentions_eq_false.mp silent
      exact alone (.unsigned inner) faces known (Bool.not_inj (y := true) single) differs
  | signed mark member inner =>
      obtain ⟨differs, single⟩ := Job.mentions_eq_false.mp silent
      exact alone (.signed mark member inner) faces known (Bool.not_inj (y := true) single) differs
  | recovered _ inner ih => exact ih faces known silent
  | placeholder returns label =>
      exact List.forall_mem_singleton.mpr (Job.mentions_eq_false.mp silent).1
  | skipped found inner ih =>
      obtain ⟨facing, wrong⟩ := faces.skipTo found
      exact List.forall_mem_cons.mpr ⟨wrong.stray.field_ne named, ih facing known silent⟩
  | seq inner ih => exact ih faces (fun e member => known.inner member) silent
  | nil | absent | noElement | ended => exact fun it none => absurd none List.not_mem_nil
  | enough least => exact fun it none => absurd none List.not_mem_nil
  | cons head rest first second =>
      obtain ⟨atHead, behind⟩ := List.forall_mem_cons.mp known
      simp only [Job.mentions, Expr.anyMentions, Bool.or_eq_false_iff] at silent
      refine List.forall_mem_append.mpr ⟨first faces atHead ?_, second (head.faces faces) behind ?_⟩
      · simp only [Job.mentions, silent, Bool.or_self]
      · simp only [Job.mentions, silent, Bool.or_self]
  | choice member inner ih =>
      exact ih faces (known.inner member) (Job.mentions_alternative member silent)
  | ordered member returns inner ih =>
      exact ih (faces.returns returns) (known.inner member)
        (Job.mentions_alternative member silent)
  | present inner ih | immediate _ inner ih | distant _ inner ih | sameLine _ inner ih
  | broken _ inner ih => exact ih faces (known.only rfl) silent
  | rep inner ih | list inner ih => exact ih faces known silent
  | copy one rest first second | forced one rest first second =>
      exact List.forall_mem_append.mpr
        ⟨first faces (known.only rfl) silent, second (one.faces faces) known silent⟩
  | lastElement one ih => exact ih faces (known.only rfl) silent
  | separated one symbol rest first second =>
      have facing := one.faces faces
      exact List.forall_mem_append.mpr ⟨first faces (known.only rfl) silent,
        List.forall_mem_append.mpr
          ⟨consume_lacks facing named, second facing.moved known silent⟩⟩
  | trailing one symbol ih =>
      exact List.forall_mem_append.mpr
        ⟨ih faces (known.only rfl) silent, consume_lacks (one.faces faces) named⟩
  | dangling one symbol rest first second =>
      have facing := one.faces faces
      exact List.forall_mem_append.mpr ⟨first faces (known.only rfl) silent,
        List.forall_mem_append.mpr
          ⟨consume_lacks facing named, second facing.moved (known.only rfl) silent⟩⟩
  | field inner ih =>
      exact ih faces (known.only rfl) (Job.mentions_eq_false.mp silent).2
  | stmts inner ih => exact ih faces known (Job.mentions_eq_false.mp silent).2
  | statement one rest first second =>
      have items := first faces.flush (known.only rfl) silent
      exact List.forall_mem_append.mpr ⟨comments_lack faces named, List.forall_mem_append.mpr
        ⟨field_markStatement items, second (one.faces faces.flush) known silent⟩⟩
  | unexpected skip rest ih =>
      obtain ⟨facing, wrong⟩ := faces.flush.skipStatement skip
      exact List.forall_mem_append.mpr ⟨comments_lack faces named,
        List.forall_mem_cons.mpr ⟨wrong.stray.field_ne named, ih facing known silent⟩⟩
  | noSuffix | suffix | onlySuffix | operand | noOperator | operator => contradiction

theorem Yields.members {e : Expr} (yields : Yields c (.task (.expr e field)) s items r) :
    Yields c (.sequence e.members field) s items r := by
  cases e with
  | seq es =>
      cases yields with
      | recovered whole => contradiction
      | seq inner => exact inner
  | _ =>
      have one := Yields.cons yields .nil
      rwa [List.append_nil] at one

theorem Yields.tally_sequence {es : List Expr} (yields : Yields c (.sequence es field) s items r)
    (tidy : c.table.Tidy level rank) (focused : c.table.Focused) (faces : Faces c s)
    (known : ∀ e ∈ es, c.table.Part e) (named : g ≠ "") (differs : field ≠ g)
    (clear : ∀ e ∈ es, e.mentions g = true → e.grants g = true) :
    tally g items = es.countP (Expr.mentions g) := by
  induction es generalizing s items with
  | nil =>
      cases yields
      rfl
  | cons e es ih =>
      cases yields with
      | cons head rest =>
          obtain ⟨atHead, behind⟩ := List.forall_mem_cons.mp known
          obtain ⟨here, later⟩ := List.forall_mem_cons.mp clear
          rw [tally_append, ih rest (head.faces faces) behind later, List.countP_cons, Nat.add_comm]
          congr 1
          split
          next mentioned =>
            have granted := here mentioned
            unfold Expr.grants at granted
            split at granted
            next name body =>
              rw [Bool.and_eq_true, beq_iff_eq] at granted
              obtain ⟨rfl, single⟩ := granted
              cases head with
              | recovered whole => contradiction
              | field inner =>
                  have sole := inner.sole tidy focused faces (atHead.only rfl) single
                  rw [sole.tally_eq named, if_pos rfl]
            next => contradiction
          next silent =>
            rw [Bool.not_eq_true] at silent
            exact tally_eq_zero.mpr (head.lacks tidy focused faces atHead named
              (Job.mentions_eq_false.mpr ⟨differs, silent⟩))

theorem Yields.tally_eq {e : Expr} {n : Nat} (yields : Yields c (.task (.expr e field)) s items r)
    (tidy : c.table.Tidy level rank) (focused : c.table.Focused) (faces : Faces c s)
    (known : c.table.Part e) (named : g ≠ "") (differs : field ≠ g)
    (bears : e.bears g n = true) : tally g items = n := by
  simp only [Expr.bears, Bool.and_eq_true, List.all_eq_true, Bool.or_eq_true, Bool.not_eq_true',
    beq_iff_eq] at bears
  have parts : ∀ p ∈ e.members, c.table.Part p := by
    cases e with
    | seq es => exact fun p member => known.inner member
    | _ => exact List.forall_mem_singleton.mpr known
  rw [← bears.2]
  refine yields.members.tally_sequence tidy focused faces parts named differs ?_
  intro p member mentioned
  refine (bears.1 p member).resolve_left fun silent => ?_
  rw [mentioned] at silent
  contradiction

/-! ### Nodes that are filled -/

variable {kind : String}

theorem fills_leaf {own : String} {named : Bool} {token : Token} (other : own ≠ kind) :
    (Subtree.ofToken own named token).Fills kind g := by
  intro start p member same
  rw [Subtree.ofToken, Node.walk_leaf, List.mem_singleton] at member
  subst member
  exact absurd same other

theorem fills_branch {own : String} {named : Bool} {length : Int} {scope : Scope} (start : Int)
    (filled : own = kind → tally g items = 1) (below : ∀ it ∈ items, it.node.Fills kind g) :
    (Subtree.branch own named length (items.map (Item.edge start)) scope).Fills kind g := by
  intro place p member same
  rcases Node.mem_walk.mp member with rfl | ⟨edge, inside, here⟩
  · rw [Node.childrenInField, List.length_map, ← List.countP_eq_length_filter]
    show ((items.map (Item.edge start)).countP fun e => e.field == g) = 1
    rw [List.countP_map]
    exact filled same
  · obtain ⟨it, child, rfl⟩ := List.mem_map.mp inside
    exact below it child _ p here same

theorem fills_finish {own : String} (filled : own = kind → tally g items = 1)
    (below : ∀ it ∈ items, it.node.Fills kind g) (s : State) (field : String) :
    (s.finish own field items).node.Fills kind g := by
  cases items with
  | nil => exact fills_branch 0 filled below
  | cons first rest => exact fills_branch _ filled below

theorem fills_withField (below : ∀ it ∈ items, it.node.Fills kind g) (field : String) :
    ∀ it ∈ withField field items, it.node.Fills kind g := by
  unfold withField
  split
  · exact below
  · rw [List.forall_mem_map]
    intro it member
    rw [Item.node_withField]
    exact below it member

theorem fills_asStatement {sub : Subtree} (fills : sub.Fills kind g) (lookahead : Int) :
    (sub.asStatement lookahead).Fills kind g := by
  intro start p member same
  rcases Node.mem_walk.mp member with rfl | ⟨edge, inside, here⟩
  · have own := fills start ⟨sub, start⟩ (Node.mem_walk_self _)
      ((Subtree.kind_asStatement sub lookahead).symm.trans same)
    rw [Node.childrenInField, List.length_map] at own ⊢
    rwa [Subtree.children_asStatement]
  · rw [Subtree.children_asStatement] at inside
    exact fills start p (Node.mem_walk.mpr (Or.inr ⟨edge, inside, here⟩)) same

theorem fills_markStatement (below : ∀ it ∈ items, it.node.Fills kind g) :
    ∀ it ∈ markStatement s r items, it.node.Fills kind g := by
  unfold markStatement
  split
  next it =>
    split
    · have own := below it (List.mem_singleton_self it)
      exact List.forall_mem_singleton.mpr (fills_asStatement own _)
    · exact below
  next => exact below

theorem IsComment.fills {t : Table} (required : t.Requires kind g) (comment : IsComment it) :
    it.node.Fills kind g := by
  obtain ⟨token, _, rfl⟩ := comment
  refine fills_leaf fun same => required.made ?_
  rw [← same]
  decide +kernel

theorem Wrong.fills {t : Table} (required : t.Requires kind g) (wrong : Wrong it) :
    it.node.Fills kind g := by
  obtain ⟨last, skipped, rfl, raw⟩ := wrong
  refine fills_finish (fun same => absurd ?_ required.made) (fun it member => ?_) last ""
  · rw [← same]
    decide +kernel
  · rcases raw it member with comment | ⟨token, spells, rfl⟩
    · exact comment.fills required
    · refine fills_leaf fun same => required.made ?_
      rw [← same]
      exact List.mem_append_left _ (Token.symbol_mem spells)

theorem consume_fills {own other : String} {named : Bool} (required : c.table.Requires kind g)
    (faces : Faces c s) (differs : own ≠ kind) :
    ∀ it ∈ (s.consume c other own named).1, it.node.Fills kind g :=
  forall_mem_consume faces (fun _ comment => comment.fills required) (fills_leaf differs)

theorem Faces.symbol_ne (faces : Faces c s) (required : c.table.Requires kind g) :
    s.token.symbol ≠ kind := by
  rintro rfl
  exact required.made (List.mem_append_left _ (Token.symbol_mem faces.spells))

theorem symbol_fills {other sym : String} {named : Bool} (required : c.table.Requires kind g)
    (faces : Faces c s) (symbol : s.token.symbol = sym) :
    ∀ it ∈ (s.consume c other sym named).1, it.node.Fills kind g :=
  consume_fills required faces (symbol ▸ faces.symbol_ne required)

theorem leaf_fills {own sym : String} (required : c.table.Requires kind g) (faces : Faces c s)
    (part : c.table.Part (.leaf own sym)) :
    ∀ it ∈ (s.consume c field own true).1, it.node.Fills kind g := by
  have other := required.parts part
  rw [Expr.provides, bne_iff_ne] at other
  exact consume_fills required faces other

theorem placeholder_fills {label : String} {start : Int} (required : c.table.Requires kind g) :
    ∀ it ∈ [(⟨field, start, .placeholder label⟩ : Item)], it.node.Fills kind g := by
  refine List.forall_mem_singleton.mpr fun start p member same => absurd ?_ required.made
  rw [List.mem_singleton.mp member] at same
  rw [← same]
  exact List.mem_append_right _ (List.mem_cons_of_mem _ List.mem_cons_self)

theorem comments_fill (required : c.table.Requires kind g) (faces : Faces c s) :
    ∀ it ∈ s.pending, it.node.Fills kind g :=
  fun it member => (faces.comments it member).fills required

theorem Yields.begun {e : Expr} (yields : Yields c (.task (.expr e field)) s items r)
    (starts : s.canStart c e = true) : Yields c (.task (.expr e.begun field)) s items r := by
  cases e with
  | sameLine body =>
      cases yields with
      | recovered whole => contradiction
      | sameLine unbroken inner => exact inner
      | broken refused inner =>
          rw [starts] at refused
          contradiction
  | _ => exact yields

section

variable {head : Expr} {many : Bool} {all : List (Suffix Expr)} {own : String} {x : Suffix Expr}
  {built : List Item} (required : c.table.Requires kind g)
  (part : c.table.Part (.suffixed head many all))

include required part

theorem suffix_bears (member : x ∈ all) (same : x.kind = kind) :
    many = false ∧ head.single = true ∧
      x.tail.begun.bears g (if x.headField = g then 0 else 1) = true := by
  have own := required.parts part
  rw [Expr.provides, List.all_eq_true] at own
  simpa [same, and_assoc] using own x member

theorem fills_closeSuffixes (based : Based head many all own built)
    (below : ∀ it ∈ built, it.node.Fills kind g) :
    ∀ it ∈ closeSuffixes s own built, it.node.Fills kind g := by
  unfold Based at based
  unfold closeSuffixes
  split at based
  next none => rwa [if_pos none]
  next some =>
    obtain ⟨more, x, member, rfl⟩ := based
    rw [if_neg some]
    refine List.forall_mem_singleton.mpr (fills_finish (fun same => ?_) below s "")
    rw [(suffix_bears required part member same).1] at more
    contradiction

theorem fills_gather (based : Based head many all own built)
    (below : ∀ it ∈ built, it.node.Fills kind g) :
    ∀ it ∈ gather s own x built, it.node.Fills kind g := by
  unfold gather
  split
  · exact below
  · exact fills_withField (fills_closeSuffixes required part based below) _

end

theorem operator_proper {own sym : String} {operand : Expr} {ops : List (String × UInt8)}
    (tidy : c.table.Tidy level rank) (part : c.table.Part (.binary own operand ops))
    (member : sym ∈ ops.map Prod.fst) : isProper own = true ∧ isProper sym = true := by
  have tidied := tidy.parts part
  rw [Expr.tidy, Bool.and_eq_true, Bool.and_eq_true, List.all_eq_true] at tidied
  obtain ⟨op, listed, rfl⟩ := List.mem_map.mp member
  exact ⟨tidied.1.1, (Bool.and_eq_true_iff.mp (tidied.2 op listed)).1⟩

theorem fills_onlySuffix {head : Expr} {all : List (Suffix Expr)} {own : String} {x : Suffix Expr}
    {built : List Item} (tidy : c.table.Tidy level rank) (focused : c.table.Focused)
    (required : c.table.Requires kind g) (faces : Faces c s)
    (part : c.table.Part (.suffixed head false all)) (member : x ∈ all)
    (starts : s.canStart c x.tail = true) (one : Yields c (.task (.expr x.tail "")) s items r)
    (based : Based head false all own built) (before : ∀ it ∈ built, it.node.Fills kind g)
    (behind : ∀ it ∈ items, it.node.Fills kind g) :
    ∀ it ∈ closeSuffixes r x.kind (gather s own x built ++ items), it.node.Fills kind g := by
  rw [closeSuffixes, if_neg (suffix_kind tidy part member).1]
  refine List.forall_mem_singleton.mpr (fills_finish (fun same => ?_)
    (List.forall_mem_append.mpr ⟨fills_gather required part based before, behind⟩) r "")
  obtain ⟨_, single, bears⟩ := suffix_bears required part member same
  have rest := (one.begun starts).tally_eq tidy focused faces (part.tail member).begun
    required.named required.named.symm bears
  rw [tally_append, (based.gather single _ _).tally_eq required.named, rest]
  split <;> rfl

theorem fills_operator {own : String} {operand : Expr} {ops : List (String × UInt8)}
    {left right : List Item} (tidy : c.table.Tidy level rank) (required : c.table.Requires kind g)
    (faces : Faces c s) (part : c.table.Part (.binary own operand ops))
    (mark : s.token.kind = .punctuation) (member : s.token.lit ∈ ops.map Prod.fst)
    (first : operand.single = true → Sole "" left)
    (second : operand.single = true → Sole "right" right)
    (before : ∀ it ∈ left, it.node.Fills kind g) (behind : ∀ it ∈ right, it.node.Fills kind g) :
    (q.finish own "" (withField "left" left ++ (s.consume c "operator" s.token.symbol false).1 ++
      right)).node.Fills kind g := by
  refine fills_finish (fun same => ?_) ?_ q ""
  · have here := required.parts part
    rw [Expr.provides, same, bne_self_eq_false, Bool.false_or, Bool.and_eq_true] at here
    obtain ⟨single, among⟩ := here
    have proper := (operator_proper tidy part member).2
    rw [← (isEnd_of_mark mark).2] at proper
    rw [tally_append, tally_append, ((first single).withField "left").tally_eq required.named,
      (Sole.consume faces proper).tally_eq required.named, (second single).tally_eq required.named]
    rcases (by simpa using among : g = "left" ∨ g = "operator" ∨ g = "right") with
      rfl | rfl | rfl <;> rfl
  · exact List.forall_mem_append.mpr ⟨List.forall_mem_append.mpr ⟨fills_withField before "left",
      symbol_fills required faces rfl⟩, behind⟩

theorem fills_signed {own : String} {operand : Expr} {marks : List String}
    (tidy : c.table.Tidy level rank) (required : c.table.Requires kind g) (faces : Faces c s)
    (part : c.table.Part (.unary own marks operand)) (mark : s.token.kind = .punctuation)
    (member : s.token.lit ∈ marks) (sole : operand.single = true → Sole "operand" items)
    (below : ∀ it ∈ items, it.node.Fills kind g) :
    (r.finish own field ((s.consume c "operator" s.token.lit false).1 ++ items)).node.Fills
      kind g := by
  refine fills_finish (fun same => ?_) ?_ r field
  · have here := required.parts part
    rw [Expr.provides, same, bne_self_eq_false, Bool.false_or, Bool.and_eq_true] at here
    obtain ⟨single, among⟩ := here
    have tidied := tidy.parts part
    rw [Expr.tidy, Bool.and_eq_true, List.all_eq_true] at tidied
    have proper := (Bool.and_eq_true_iff.mp (tidied.2 _ member)).1
    rw [tally_append, (Sole.consume faces proper).tally_eq required.named,
      (sole single).tally_eq required.named]
    rcases (by simpa using among : g = "operator" ∨ g = "operand") with rfl | rfl <;> rfl
  · exact List.forall_mem_append.mpr
      ⟨symbol_fills required faces (isEnd_of_mark mark).2, below⟩

def Job.Filled (t : Table) (kind g : String) (items : List Item) : Job → Prop
  | .task (.suffixes many all own built _) =>
      ∀ head, t.Part (.suffixed head many all) → Based head many all own built →
        (∀ it ∈ built, it.node.Fills kind g) → ∀ it ∈ items, it.node.Fills kind g
  | .task (.operators _ operand _ _ left _) =>
      (operand.single = true → Sole "" left) → (∀ it ∈ left, it.node.Fills kind g) →
        ∀ it ∈ items, it.node.Fills kind g
  | _ => ∀ it ∈ items, it.node.Fills kind g

theorem Yields.filled {job : Job} (yields : Yields c job s items r)
    (tidy : c.table.Tidy level rank) (focused : c.table.Focused)
    (required : c.table.Requires kind g) (faces : Faces c s) (known : job.Known c.table) :
    job.Filled c.table kind g items := by
  induction yields with
  | tok more symbol word => exact symbol_fills required faces symbol
  | leaf more symbol => exact leaf_fills required faces known
  | placeholder returns label => exact placeholder_fills required
  | skipped found inner ih =>
      obtain ⟨facing, wrong⟩ := faces.skipTo found
      exact List.forall_mem_cons.mpr ⟨wrong.fills required, ih facing known⟩
  | spliced found hidden inner ih => exact ih faces (Table.part_body found)
  | node found visible inner ih =>
      have part := Table.part_body found
      refine List.forall_mem_singleton.mpr (fills_finish (fun same => ?_) (ih faces part) _ _)
      exact inner.tally_eq tidy focused faces part required.named required.named.symm
        (required.rules found visible same)
  | seq inner ih => exact ih faces fun e member => known.inner member
  | nil | absent | noElement | ended => exact fun it none => absurd none List.not_mem_nil
  | enough least => exact fun it none => absurd none List.not_mem_nil
  | cons head rest first second =>
      obtain ⟨atHead, behind⟩ := List.forall_mem_cons.mp known
      exact List.forall_mem_append.mpr ⟨first faces atHead, second (head.faces faces) behind⟩
  | choice member inner ih => exact ih faces (known.inner member)
  | ordered member returns inner ih => exact ih (faces.returns returns) (known.inner member)
  | present inner ih | immediate _ inner ih | distant _ inner ih | sameLine _ inner ih
  | broken _ inner ih | field inner ih | unsigned inner ih | lastElement inner ih =>
      exact ih faces (known.only rfl)
  | recovered _ inner ih | rep inner ih | list inner ih | stmts inner ih | binary inner ih =>
      exact ih faces known
  | copy one rest first second | forced one rest first second =>
      exact List.forall_mem_append.mpr ⟨first faces (known.only rfl), second (one.faces faces) known⟩
  | separated one symbol rest first second =>
      have facing := one.faces faces
      exact List.forall_mem_append.mpr ⟨first faces (known.only rfl),
        List.forall_mem_append.mpr
          ⟨symbol_fills required facing symbol, second facing.moved known⟩⟩
  | trailing one symbol ih =>
      exact List.forall_mem_append.mpr
        ⟨ih faces (known.only rfl), symbol_fills required (one.faces faces) symbol⟩
  | dangling one symbol rest first second =>
      have facing := one.faces faces
      exact List.forall_mem_append.mpr ⟨first faces (known.only rfl),
        List.forall_mem_append.mpr
          ⟨symbol_fills required facing symbol, second facing.moved (known.only rfl)⟩⟩
  | statement one rest first second =>
      have items := first faces.flush (known.only rfl)
      exact List.forall_mem_append.mpr ⟨comments_fill required faces, List.forall_mem_append.mpr
        ⟨fills_markStatement items, second (one.faces faces.flush) known⟩⟩
  | unexpected skip rest ih =>
      obtain ⟨facing, wrong⟩ := faces.flush.skipStatement skip
      exact List.forall_mem_append.mpr ⟨comments_fill required faces,
        List.forall_mem_cons.mpr ⟨wrong.fills required, ih facing known⟩⟩
  | suffixed front rest first second =>
      refine second (front.faces faces) ⟨_, known⟩ _ known ?_ (first faces known.head)
      rw [Based, if_pos rfl]
      exact front.sole tidy focused faces known.head
  | noSuffix =>
      exact fun head part based below =>
        fills_withField (fills_closeSuffixes required part based below) _
  | suffix member _ one rest first second =>
      intro head part based below
      exact second (one.faces faces) known head part (.more tidy part member _)
        (List.forall_mem_append.mpr
          ⟨fills_gather required part based below, first faces (part.tail member)⟩)
  | onlySuffix member starts one ih =>
      intro head part based below
      exact fills_withField (fills_onlySuffix tidy focused required faces part member starts one
        based below (ih faces (part.tail member))) _
  | operand one rest first second =>
      exact second (one.faces faces) known (one.sole tidy focused faces (known.only rfl))
        (first faces (known.only rfl))
  | noOperator => exact fun _ below => fills_withField below _
  | operator mark member _ _ one rest first second =>
      intro head below
      have proper := (operator_proper tidy known member).1
      exact second (one.faces faces.moved) known (fun _ => .finish proper _ "" _)
        (List.forall_mem_singleton.mpr (fills_operator tidy required faces known mark member head
          (one.sole tidy focused faces.moved known) below (first faces.moved known)))
  | signed mark member inner ih =>
      exact List.forall_mem_singleton.mpr (fills_signed tidy required faces known mark member
        (inner.sole tidy focused faces.moved known) (ih faces.moved known))

/-- Every node of a kind has its required fields, each once, whatever the text
is. What is not there is a placeholder in its field. -/
theorem required_fields (window : Nat) (text : Text) :
    ∃ tree, Parser.parse { window } text = .ok tree ∧
      ∀ kind fields, (kind, fields) ∈ Mq.requiredFields →
        ∀ n ∈ tree.rootNode.walk, n.kind = kind →
          ∀ field ∈ fields, ∃ child, n.childrenInField field = [child] := by
  obtain ⟨items, last, parsed, _⟩ := parse_described window text
  refine ⟨_, parse_eq_of_build (parsed.build_eq Mq.lawful), ?_⟩
  intro kind fields listed n member same field wanted
  have required := Mq.requires listed wanted
  have faces := Faces.initial (Parser.context { window } text) .empty
  have yields := parsed.yields rfl
  have filled := yields.filled Mq.tidy Mq.focused required faces mq_part_start
  have below : ∀ it ∈ items ++ last.pending, it.node.Fills kind field :=
    List.forall_mem_append.mpr ⟨filled, fun it comment =>
      ((yields.faces faces).comments it comment).fills required⟩
  have root : (Parsed.root (Parser.context { window } text) items last).Fills kind field := by
    refine fills_branch 0 (fun own => absurd ?_ required.made) below
    rw [← own]
    exact List.mem_append_right _ (by decide)
  exact List.length_eq_one_iff.mp (root 0 n member same)

end Parser

end MqTree
