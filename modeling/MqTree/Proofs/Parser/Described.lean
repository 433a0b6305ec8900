import MqTree.Proofs.Grammar.Slots
import MqTree.Proofs.Parser.Document
import MqTree.Proofs.Parser.Facing

namespace MqTree

/-! Whatever a parse builds, the catalog of its grammar describes. -/

namespace Subtree

def ref (n : Subtree) : TypeRef := ⟨n.kind, n.named⟩

def extra (n : Subtree) : Bool := [commentSymbol, errorKind, missingKind].contains n.kind

end Subtree

namespace Table

/-- Whether a node may stand in one of a kind, under a field. Terminals without
a name need not be listed where they have no field. -/
def Allows (t : Table) (owner : TypeRef) (field : String) (n : Subtree) : Prop :=
  n.extra = true ∨
    t.Makes n.ref ∧ (t.Holds owner ⟨field, n.ref⟩ ∨ field = "" ∧ n.named = false)

mutual

/-- Whether all nodes of a tree hold what they may, and leaves are called by
what they are. -/
def Describes (t : Table) : Subtree → Prop
  | .leaf kind _ _ token _ _ =>
      kind ≠ errorKind ∧ kind ≠ missingKind ∧ (kind = errorSymbol ↔ token = .error)
  | .missing .. => True
  | .branch kind named _ children _ =>
      kind ≠ missingKind ∧ DescribesAll t children ∧
        (kind ≠ errorKind → t.Makes ⟨kind, named⟩ ∧
          ∀ edge ∈ children, t.Allows ⟨kind, named⟩ edge.field edge.node)

def DescribesAll (t : Table) : List (Edge Subtree) → Prop
  | [] => True
  | ⟨_, _, node⟩ :: rest => Describes t node ∧ DescribesAll t rest

end

variable {t : Table}

theorem describesAll_iff {edges : List (Edge Subtree)} :
    t.DescribesAll edges ↔ ∀ edge ∈ edges, t.Describes edge.node := by
  induction edges with
  | nil => simp [DescribesAll]
  | cons edge edges ih => rw [DescribesAll, ih, List.forall_mem_cons]

end Table

theorem Subtree.anyHasError_eq_true {edges : List (Edge Subtree)} :
    anyHasError edges = true ↔ ∃ edge ∈ edges, edge.node.hasError = true := by
  induction edges with
  | nil => simp [anyHasError]
  | cons edge edges ih => simp [anyHasError, ih]

/-- An error, a placeholder or a token that is none. -/
def Node.Faulty (n : Node) : Prop :=
  n.sub.isError = true ∨ n.sub.isMissing = true ∨ n.sub.isLeaf = true ∧ n.sub.kind = errorSymbol

namespace Table.Describes

variable {t : Table} {sub : Subtree}

theorem child (describes : t.Describes sub) {edge : Edge Subtree} (member : edge ∈ sub.children) :
    t.Describes edge.node := by
  cases sub with
  | branch => exact describesAll_iff.mp describes.2.1 edge member
  | leaf | missing => contradiction

theorem of_mem_walk (describes : t.Describes sub) {start : Int} {p : Node}
    (member : p ∈ (Node.mk sub start).walk) : t.Describes p.sub := by
  induction sub using Subtree.by_children generalizing start with
  | step sub ih =>
      rcases Node.mem_walk.mp member with rfl | ⟨edge, below, inside⟩
      · exact describes
      · exact ih edge below (describes.child below) inside

theorem hasError_iff (describes : t.Describes sub) (start : Int) :
    sub.hasError = true ↔ ∃ n ∈ (Node.mk sub start).walk, n.Faulty := by
  induction sub using Subtree.by_children generalizing start with
  | step sub ih =>
      have below : (∃ n ∈ (Node.mk sub start).walk, n.Faulty) ↔
          (Node.mk sub start).Faulty ∨ ∃ edge ∈ sub.children, edge.node.hasError = true := by
        constructor
        · rintro ⟨n, member, faulty⟩
          rcases Node.mem_walk.mp member with rfl | ⟨edge, inside, here⟩
          · exact Or.inl faulty
          · exact Or.inr ⟨edge, inside,
              (ih edge inside (describes.child inside) _).mpr ⟨n, here, faulty⟩⟩
        · rintro (faulty | ⟨edge, inside, error⟩)
          · exact ⟨_, Node.mem_walk.mpr (Or.inl rfl), faulty⟩
          · obtain ⟨n, here, faulty⟩ := (ih edge inside (describes.child inside) _).mp error
            exact ⟨n, Node.mem_walk.mpr (Or.inr ⟨edge, inside, here⟩), faulty⟩
      rw [below]
      cases sub with
      | leaf kind named length token lit scope =>
          obtain ⟨noError, noMissing, same⟩ := describes
          simp [Node.Faulty, Subtree.hasError, Subtree.isError, Subtree.isMissing, Subtree.isLeaf,
            Subtree.kind, Subtree.children, noError, noMissing, same]
      | missing =>
          simp [Node.Faulty, Subtree.hasError, Subtree.isMissing, Subtree.kind]
      | branch kind named length children scope =>
          simp [Node.Faulty, Subtree.hasError, Subtree.isError, Subtree.isMissing, Subtree.isLeaf,
            Subtree.kind, Subtree.children, describes.1, Subtree.anyHasError_eq_true]

end Table.Describes

theorem Token.symbol_of_spells {token : Token} (spells : token.kind.Spells token.lit) :
    token.symbol ≠ errorKind ∧ token.symbol ≠ missingKind ∧
      (token.symbol = errorSymbol ↔ token.kind = .error) := by
  unfold Token.symbol
  cases kind : token.kind
  all_goals rw [kind] at spells
  case keyword =>
    have other := (by decide : ∀ word ∈ keywords,
      word ≠ errorKind ∧ word ≠ missingKind ∧ word ≠ errorSymbol) _ spells
    exact ⟨other.1, other.2.1, by simp [other.2.2]⟩
  case punctuation =>
    have other := (by decide : ∀ mark ∈ punctuationMarks,
      mark ≠ errorKind ∧ mark ≠ missingKind ∧ mark ≠ errorSymbol) _ spells
    exact ⟨other.1, other.2.1, by simp [other.2.2]⟩
  all_goals
    simp only []
    decide

namespace Parser

variable {c : Context} {t : Table} {level : List String} {rank : String → Nat} {s r q : State}
  {items : List Item} {it : Item} {e : Expr} {field : String}

theorem describes_items (kind : String) (named : Bool) (length start : Int) (scope : Scope) :
    t.Describes (.branch kind named length (items.map (Item.edge start)) scope) ↔
      kind ≠ missingKind ∧ (∀ it ∈ items, t.Describes it.node) ∧
        (kind ≠ errorKind → t.Makes ⟨kind, named⟩ ∧
          ∀ it ∈ items, t.Allows ⟨kind, named⟩ it.field it.node) := by
  rw [Table.Describes, Table.describesAll_iff, List.forall_mem_map, List.forall_mem_map]
  rfl

theorem describes_finish {kind : String} (proper : isProper kind = true)
    (makes : t.Makes ⟨kind, true⟩)
    (below : ∀ it ∈ items, t.Describes it.node ∧ t.Allows ⟨kind, true⟩ it.field it.node) :
    t.Describes (s.finish kind field items).node := by
  have holds (length start : Int) (scope : Scope) :=
    (@describes_items t items kind true length start scope).mpr
      ⟨(isProper_iff.mp proper).2.2.2, fun it member => (below it member).1,
        fun _ => ⟨makes, fun it member => (below it member).2⟩⟩
  cases items with
  | nil => exact holds 0 0 _
  | cons first rest => exact holds _ first.start _

theorem ref_finish (s : State) (kind field : String) (items : List Item) :
    (s.finish kind field items).node.ref = ⟨kind, true⟩ ∧
      (s.finish kind field items).field = field := by
  cases items <;> exact ⟨rfl, rfl⟩

theorem describes_token {token : Token} (spells : token.kind.Spells token.lit) (named : Bool) :
    t.Describes (.ofToken token.symbol named token) := Token.symbol_of_spells spells

theorem IsComment.describes (comment : IsComment it) :
    t.Describes it.node ∧ it.node.extra = true := by
  obtain ⟨token, kind, rfl⟩ := comment
  refine ⟨⟨by decide, by decide, ?_⟩, rfl⟩
  rw [kind]
  decide

theorem Wrong.describes (wrong : Wrong it) : t.Describes it.node ∧ it.node.extra = true := by
  obtain ⟨last, skipped, rfl, raw⟩ := wrong
  have inner : ∀ it ∈ skipped, t.Describes it.node := by
    intro it member
    rcases raw it member with comment | ⟨token, spells, rfl⟩
    · exact comment.describes.1
    · exact describes_token spells _
  have holds (length start : Int) (scope : Scope) :=
    (@describes_items t skipped errorKind true length start scope).mpr
      ⟨by decide, inner, fun differs => absurd rfl differs⟩
  cases skipped with
  | nil => exact ⟨holds 0 0 _, rfl⟩
  | cons first rest => exact ⟨holds _ first.start _, rfl⟩

def Belongs (t : Table) (level : List String) (e : Expr) (field : String) (it : Item) : Prop :=
  t.Describes it.node ∧
    (it.node.extra = true ∨
      t.Makes it.node.ref ∧
        (⟨it.field, it.node.ref⟩ ∈ t.slots field e ∨
          e.even t level = false ∧ it.field = "" ∧ it.node.named = false))

namespace Belongs

theorem of_extra (held : t.Describes it.node ∧ it.node.extra = true) (e : Expr) (field : String) :
    Belongs t level e field it := ⟨held.1, Or.inl held.2⟩

theorem mono {f : Expr} {other : String} (belongs : Belongs t level e field it)
    (subset : t.slots field e ⊆ t.slots other f)
    (even : f.even t level = true → e.even t level = true) : Belongs t level f other it := by
  obtain ⟨described, here⟩ := belongs
  refine ⟨described, here.imp id fun ⟨makes, place⟩ => ⟨makes, ?_⟩⟩
  refine place.imp (fun member => subset member) fun ⟨uneven, bare⟩ => ⟨?_, bare⟩
  apply Bool.eq_false_iff.mpr
  intro level
  rw [even level] at uneven
  contradiction

theorem allows {owner : TypeRef} (belongs : Belongs t level e field it)
    (holds : ∀ slot ∈ t.slots field e, t.Holds owner slot) :
    t.Describes it.node ∧ t.Allows owner it.field it.node := by
  obtain ⟨described, here⟩ := belongs
  refine ⟨described, here.imp id fun ⟨makes, place⟩ => ⟨makes, ?_⟩⟩
  exact place.imp (fun member => holds _ member) And.right

theorem withField (tidy : t.Tidy level rank) (even : e.even t level = true)
    (belong : ∀ it ∈ items, Belongs t level e "" it) :
    ∀ it ∈ withField field items, Belongs t level e field it := by
  unfold Parser.withField
  split
  next none =>
    subst none
    exact belong
  next =>
    rw [List.forall_mem_map]
    intro it member
    obtain ⟨described, here⟩ := belong it member
    refine ⟨by rwa [Item.node_withField], ?_⟩
    rw [Item.node_withField]
    rcases here with extra | ⟨makes, slot | ⟨uneven, _⟩⟩
    · exact Or.inl extra
    · by_cases takes : it.takesField = true
      · refine Or.inr ⟨makes, Or.inl ?_⟩
        rw [Item.withField, if_pos takes, tidy.leveled.slots_even even "" field]
        exact List.mem_map.mpr ⟨_, slot, rfl⟩
      · -- Only comments and errors keep to themselves.
        have unnamed : it.field = "" := by
          rw [tidy.leveled.slots_even even "" ""] at slot
          obtain ⟨_, _, made⟩ := List.mem_map.mp slot
          exact (congrArg Slot.field made).symm
        rw [Item.takesField, unnamed] at takes
        left
        by_contra plain
        simp [Subtree.extra] at plain
        simp [plain] at takes
    · rw [even] at uneven
      contradiction

end Belongs

theorem Belongs.finish {kind other : String} (proper : isProper kind = true)
    (makes : t.Makes ⟨kind, true⟩)
    (below : ∀ it ∈ items, t.Describes it.node ∧ t.Allows ⟨kind, true⟩ it.field it.node)
    (slot : ⟨other, kind, true⟩ ∈ t.slots field e) (s : State) :
    Belongs t level e field (s.finish kind other items) := by
  refine ⟨describes_finish proper makes below, Or.inr ?_⟩
  rw [(ref_finish ..).1, (ref_finish ..).2]
  exact ⟨makes, Or.inl slot⟩

theorem forall_mem_consume {P : Item → Prop} {kind other : String} {named : Bool}
    (faces : Faces c s) (extra : ∀ it, IsComment it → P it)
    (leaf : P ⟨other, s.token.start, .ofToken kind named s.token⟩) :
    ∀ it ∈ (s.consume c other kind named).1, P it := by
  rw [State.consume_fst, List.forall_mem_append]
  exact ⟨fun it member => extra it (faces.comments it member), List.forall_mem_singleton.mpr leaf⟩

theorem IsComment.allows (comment : IsComment it) (owner : TypeRef) :
    t.Describes it.node ∧ t.Allows owner it.field it.node :=
  ⟨comment.describes.1, Or.inl (comment.describes (t := t)).2⟩

theorem IsComment.belongs (comment : IsComment it) : Belongs t level e field it :=
  .of_extra comment.describes e field

theorem belongs_alternative {alts : List Expr} (member : e ∈ alts)
    (below : ∀ it ∈ items, Belongs t level e field it) :
    ∀ it ∈ items, Belongs t level (.choice alts) field it := by
  intro it here
  refine (below it here).mono ?_ fun even => (Expr.evenAll_eq_true t level).mp even e member
  intro slot inside
  show slot ∈ Expr.slotsOfAll _ field alts
  rw [Expr.slotsOfAll_eq]
  exact List.mem_flatMap.mpr ⟨e, member, inside⟩

theorem belongs_separator {elem : Expr} {sep : String} {trailing : Bool}
    (tidy : t.Tidy level rank) (faces : Faces c s) (part : t.Part (.sepBy elem sep trailing))
    (symbol : s.token.symbol = sep) :
    ∀ it ∈ (s.consume c "" sep false).1, Belongs t level (.sepBy elem sep trailing) field it := by
  have own := tidy.parts part
  rw [Expr.tidy, Bool.and_eq_true, Bool.not_eq_true'] at own
  have made := Table.makes_symbol (tidy.symbols part (List.mem_singleton_self sep))
    (isProper_iff.mp own.1).1
  rw [own.2] at made
  refine forall_mem_consume faces (fun it comment => comment.belongs) ⟨?_, Or.inr ⟨made, Or.inr ?_⟩⟩
  · rw [← symbol]
    exact describes_token faces.spells false
  · exact ⟨rfl, rfl, rfl⟩

theorem belongs_element {elem : Expr} {sep : String} {trailing : Bool}
    (below : ∀ it ∈ items, Belongs t level elem field it) :
    ∀ it ∈ items, Belongs t level (.sepBy elem sep trailing) field it :=
  fun it here =>
    (below it here).mono (List.Subset.refl _) fun even => by simp [Expr.even] at even

theorem allows_operator {op : String} {owner : TypeRef} (tidy : t.Tidy level rank)
    (faces : Faces c s) (part : t.Part e) (mentioned : op ∈ e.terminals)
    (proper : (isProper op && !isNamedSymbol op) = true) (symbol : s.token.symbol = op)
    (holds : t.Holds owner ⟨"operator", op, false⟩) :
    ∀ it ∈ (s.consume c "operator" op false).1,
      t.Describes it.node ∧ t.Allows owner it.field it.node := by
  rw [Bool.and_eq_true, Bool.not_eq_true'] at proper
  have made := Table.makes_symbol (tidy.symbols part mentioned) (isProper_iff.mp proper.1).1
  rw [proper.2] at made
  refine forall_mem_consume faces (fun it comment => comment.allows owner)
    ⟨?_, Or.inr ⟨made, Or.inl holds⟩⟩
  rw [← symbol]
  exact describes_token faces.spells false

theorem belongs_markStatement (belong : ∀ it ∈ items, Belongs t level e field it) :
    ∀ it ∈ markStatement s r items, Belongs t level e field it := by
  unfold markStatement
  split
  next it =>
    split
    · have whole := belong it (List.mem_singleton_self it)
      refine List.forall_mem_singleton.mpr ?_
      obtain ⟨field, start, node⟩ := it
      cases node <;> exact whole
    · exact belong
  next => exact belong

/-! ### Suffixes -/

def Stem (t : Table) (level : List String) (head : Expr) (many : Bool) (all : List (Suffix Expr))
    (kind : String) (built : List Item) : Prop :=
  if kind = "" then ∀ it ∈ built, Belongs t level head "" it
  else many = true ∧ (∃ x ∈ all, x.kind = kind) ∧
    ∀ it ∈ built, t.Describes it.node ∧ t.Allows ⟨kind, true⟩ it.field it.node

section

variable {head : Expr} {many : Bool} {all : List (Suffix Expr)} {x : Suffix Expr} {kind : String}
  {built : List Item} (tidy : t.Tidy level rank) (part : t.Part (.suffixed head many all))

include tidy part

theorem head_even : head.even t level = true := by
  have own := tidy.parts part
  rw [Expr.tidy, Bool.and_eq_true] at own
  exact own.1

theorem suffixed_even : (Expr.suffixed head many all).even t level = true := by
  rw [Expr.even]
  exact head_even tidy part

theorem suffix_kind (member : x ∈ all) : x.kind ≠ "" ∧ isProper x.kind = true := by
  have own := tidy.parts part
  rw [Expr.tidy, Bool.and_eq_true, List.all_eq_true] at own
  have named := own.2 x member
  rwa [Bool.and_eq_true, bne_iff_ne] at named

omit tidy in
theorem suffix_holds (member : x ∈ all) {slot : Slot}
    (inside : slot ∈ t.slots x.headField head ∨
      (many = true ∧ 1 < all.length ∧ ∃ y ∈ all, slot = ⟨x.headField, y.kind, true⟩) ∨
      slot ∈ t.slots "" x.tail) : t.Holds ⟨x.kind, true⟩ slot := by
  refine ⟨_, part.mem_contents (List.mem_map_of_mem member), rfl, ?_⟩
  rcases inside with head | ⟨rfl, several, y, other, rfl⟩ | tail
  · exact List.mem_append_left _ (List.mem_append_left _ head)
  · refine List.mem_append_left _ (List.mem_append_right _ ?_)
    rw [if_pos (by simpa using several)]
    exact List.mem_map.mpr ⟨y, other, rfl⟩
  · exact List.mem_append_right _ tail

omit tidy in
theorem suffix_made (member : x ∈ all) : t.Makes ⟨x.kind, true⟩ :=
  ⟨_, part.mem_contents (List.mem_map_of_mem member), rfl⟩

theorem belongs_closed (member : x ∈ all)
    (below : ∀ it ∈ built, t.Describes it.node ∧ t.Allows ⟨x.kind, true⟩ it.field it.node) :
    ∀ it ∈ closeSuffixes s x.kind built, Belongs t level (.suffixed head many all) "" it := by
  obtain ⟨some, proper⟩ := suffix_kind tidy part member
  rw [closeSuffixes, if_neg some]
  refine List.forall_mem_singleton.mpr (.finish proper (suffix_made part member) below ?_ s)
  exact List.mem_append_left _ (List.mem_map.mpr ⟨x, member, rfl⟩)

omit tidy part in
theorem belongs_head (belongs : Belongs t level head field it) :
    Belongs t level (.suffixed head many all) field it :=
  belongs.mono (List.subset_append_right _ _) id

theorem Stem.close (stem : Stem t level head many all kind built) :
    ∀ it ∈ closeSuffixes s kind built, Belongs t level (.suffixed head many all) "" it := by
  unfold Stem at stem
  split at stem
  next none =>
    rw [closeSuffixes, if_pos none]
    exact fun it member => belongs_head (stem it member)
  next =>
    obtain ⟨_, ⟨x, member, rfl⟩, below⟩ := stem
    exact belongs_closed tidy part member below

theorem Stem.gather (stem : Stem t level head many all kind built) (member : x ∈ all) :
    ∀ it ∈ gather s kind x built, t.Describes it.node ∧ t.Allows ⟨x.kind, true⟩ it.field it.node := by
  unfold Parser.gather
  split
  next same =>
    rw [Bool.and_eq_true, decide_eq_true_iff, bne_iff_ne] at same
    rw [Stem, if_neg same.2, same.1] at stem
    exact stem.2.2
  next other =>
    unfold Stem at stem
    split at stem
    next none =>
      rw [closeSuffixes, if_pos none]
      intro it inside
      exact (Belongs.withField tidy (head_even tidy part) stem it inside).allows
        fun slot here => suffix_holds part member (Or.inl here)
    next some =>
      -- A node of another kind, which is only there if suffixes go on.
      obtain ⟨rfl, ⟨y, former, rfl⟩, below⟩ := stem
      have several : 1 < all.length := by
        by_contra few
        obtain ⟨z, rfl⟩ : ∃ z, all = [z] := List.length_eq_one_iff.mp (by
          have := List.length_pos_of_mem member
          omega)
        rw [List.mem_singleton.mp former, List.mem_singleton.mp member] at other
        simp [← List.mem_singleton.mp former, some] at other
      have node : ∀ it ∈ [s.finish y.kind "" built], Belongs t level (.leaf y.kind "") "" it :=
        List.forall_mem_singleton.mpr (.finish (suffix_kind tidy part former).2
          (suffix_made part former) below (List.mem_singleton_self _) s)
      rw [closeSuffixes, if_neg some]
      intro it inside
      refine (Belongs.withField tidy rfl node it inside).allows fun slot here => ?_
      exact suffix_holds part member
        (Or.inr (Or.inl ⟨rfl, several, y, former, List.mem_singleton.mp here⟩))

theorem Stem.allows (stem : Stem t level head many all kind built) (member : x ∈ all)
    (tail : ∀ it ∈ items, Belongs t level x.tail "" it) :
    ∀ it ∈ Parser.gather s kind x built ++ items,
      t.Describes it.node ∧ t.Allows ⟨x.kind, true⟩ it.field it.node := by
  refine List.forall_mem_append.mpr ⟨stem.gather tidy part member, fun it inside => ?_⟩
  exact (tail it inside).allows fun slot here =>
    suffix_holds part member (Or.inr (Or.inr here))

theorem Stem.grow (stem : Stem t level head many all kind built) (more : many = true)
    (member : x ∈ all) (tail : ∀ it ∈ items, Belongs t level x.tail "" it) :
    Stem t level head many all x.kind (Parser.gather s kind x built ++ items) := by
  rw [Stem, if_neg (suffix_kind tidy part member).1]
  exact ⟨more, ⟨x, member, rfl⟩, stem.allows tidy part member tail⟩

end

/-! ### Along a parse -/

theorem belongs_tok {sym : String} {words : List String} (tidy : c.table.Tidy level rank)
    (faces : Faces c s) (part : c.table.Part (.tok sym words)) (symbol : s.token.symbol = sym) :
    ∀ it ∈ (s.consume c field sym (isNamedSymbol sym)).1,
      Belongs c.table level (.tok sym words) field it := by
  have made := Table.makes_symbol (tidy.symbols part (List.mem_singleton_self _))
    (isProper_iff.mp (tidy.parts part)).1
  refine forall_mem_consume faces (fun it comment => comment.belongs)
    ⟨?_, Or.inr ⟨made, Or.inl (List.mem_singleton_self _)⟩⟩
  rw [← symbol]
  exact describes_token faces.spells _

theorem belongs_leaf {kind sym : String} (tidy : c.table.Tidy level rank) (faces : Faces c s)
    (part : c.table.Part (.leaf kind sym)) (symbol : s.token.symbol = sym) :
    ∀ it ∈ (s.consume c field kind true).1, Belongs c.table level (.leaf kind sym) field it := by
  have own := tidy.parts part
  simp only [Expr.tidy, Bool.and_eq_true, bne_iff_ne, isProper_iff] at own
  obtain ⟨⟨⟨⟨_, _, noError, noMissing⟩, noToken⟩, _⟩, plain⟩ := own
  have made : c.table.Makes ⟨kind, true⟩ :=
    ⟨_, part.mem_contents (List.mem_singleton_self _), rfl⟩
  refine forall_mem_consume faces (fun it comment => comment.belongs)
    ⟨⟨noError, noMissing, ?_⟩, Or.inr ⟨made, Or.inl (List.mem_singleton_self _)⟩⟩
  rw [← (Token.symbol_of_spells faces.spells).2.2, symbol]
  exact iff_of_false noToken plain

section

variable {name : String} {rule : Rule} (tidy : t.Tidy level rank) (found : t.rule? name = some rule)

include tidy found

theorem belongs_spliced (hidden : rule.hidden = true)
    (below : ∀ it ∈ items, Belongs t level rule.body field it) :
    ∀ it ∈ items, Belongs t level (.ref name) field it := by
  intro it here
  refine (below it here).mono ?_ fun even => tidy.leveled _ ?_ _ found
  · rw [tidy.layered.slots_hidden found hidden]
    exact List.Subset.refl _
  · simpa [Expr.even, found, hidden] using even

theorem belongs_node (visible : rule.hidden = false)
    (below : ∀ it ∈ items, Belongs t level rule.body "" it) (s : State) :
    Belongs t level (.ref name) field (s.finish rule.nodeKind field items) := by
  have content := Table.mem_contents_of_visible found visible
  refine .finish (tidy.rules found visible) ⟨_, content, rfl⟩ (fun it member => ?_) ?_ s
  · exact (below it member).allows fun slot inside => ⟨_, content, rfl, inside⟩
  · rw [Table.slots_visible found visible]
    exact List.mem_singleton_self _

end

theorem belongs_first {es : List Expr} (below : ∀ it ∈ items, Belongs t level e field it) :
    ∀ it ∈ items, Belongs t level (.seq (e :: es)) field it :=
  fun it here => (below it here).mono (List.subset_append_left _ _) fun even =>
    (Bool.and_eq_true_iff.mp even).1

theorem belongs_later {es : List Expr} (below : ∀ it ∈ items, Belongs t level (.seq es) field it) :
    ∀ it ∈ items, Belongs t level (.seq (e :: es)) field it :=
  fun it here => (below it here).mono (List.subset_append_right _ _) fun even =>
    (Bool.and_eq_true_iff.mp even).2

theorem belongs_field {name : String} (below : ∀ it ∈ items, Belongs t level e name it) :
    ∀ it ∈ items, Belongs t level (.field name e) field it :=
  fun it here =>
    (below it here).mono (List.Subset.refl _) fun even => by simp [Expr.even] at even

theorem belongs_statement {name : String} {closers : List String}
    (below : ∀ it ∈ items, Belongs t level e name it) :
    ∀ it ∈ items, Belongs t level (.stmts name e closers) field it :=
  fun it here =>
    (below it here).mono (List.Subset.refl _) fun even => by simp [Expr.even] at even

section

variable {kind : String} {operand : Expr} {ops : List (String × UInt8)} {marks : List String}

theorem belongs_operand (below : ∀ it ∈ items, Belongs t level operand field it) :
    ∀ it ∈ items, Belongs t level (.binary kind operand ops) field it :=
  fun it here => (below it here).mono (List.subset_cons_self _ _) id

theorem belongs_unsigned (below : ∀ it ∈ items, Belongs t level operand field it) :
    ∀ it ∈ items, Belongs t level (.unary kind marks operand) field it :=
  fun it here => (below it here).mono (List.subset_cons_self _ _) id

theorem binary_even (tidy : t.Tidy level rank) (part : t.Part (.binary kind operand ops)) :
    (Expr.binary kind operand ops).even t level = true := by
  have own := tidy.parts part
  rw [Expr.tidy, Bool.and_eq_true, Bool.and_eq_true] at own
  exact own.1.2

theorem operand_holds {side : String} {slot : Slot} (part : t.Part (.binary kind operand ops))
    (known : side ∈ ["left", "right"])
    (inside : slot ∈ t.slots side (.binary kind operand ops)) : t.Holds ⟨kind, true⟩ slot :=
  ⟨_, part.mem_contents (List.mem_singleton_self _), rfl,
    List.mem_append_left _ (List.mem_flatMap.mpr ⟨side, known, inside⟩)⟩

theorem allows_between (tidy : c.table.Tidy level rank) (faces : Faces c s)
    (part : c.table.Part (.binary kind operand ops)) (mark : s.token.kind = .punctuation)
    (member : s.token.lit ∈ ops.map Prod.fst) :
    ∀ it ∈ (s.consume c "operator" s.token.symbol false).1,
      c.table.Describes it.node ∧ c.table.Allows ⟨kind, true⟩ it.field it.node := by
  have own := tidy.parts part
  rw [Expr.tidy, Bool.and_eq_true, List.all_eq_true] at own
  have symbol := (isEnd_of_mark mark).2
  obtain ⟨op, listed, spelled⟩ := List.mem_map.mp member
  rw [symbol, ← spelled]
  refine allows_operator tidy faces part ?_ (own.2 op listed) (symbol.trans spelled.symm) ?_
  · rw [Expr.terminals, mem_sortedBy]
    exact List.mem_map_of_mem listed
  · exact ⟨_, part.mem_contents (List.mem_singleton_self _), rfl,
      List.mem_append_right _ (List.mem_map.mpr ⟨op, listed, rfl⟩)⟩

theorem belongs_operator {left right : List Item} (tidy : c.table.Tidy level rank)
    (faces : Faces c s) (part : c.table.Part (.binary kind operand ops))
    (mark : s.token.kind = .punctuation) (member : s.token.lit ∈ ops.map Prod.fst)
    (before : ∀ it ∈ left, Belongs c.table level (.binary kind operand ops) "" it)
    (behind : ∀ it ∈ right, Belongs c.table level (.binary kind operand ops) "right" it) :
    Belongs c.table level (.binary kind operand ops) "" (q.finish kind "" (withField "left" left ++
      (s.consume c "operator" s.token.symbol false).1 ++ right)) := by
  have own := tidy.parts part
  rw [Expr.tidy, Bool.and_eq_true, Bool.and_eq_true] at own
  refine .finish own.1.1 ⟨_, part.mem_contents (List.mem_singleton_self _), rfl⟩ ?_
    List.mem_cons_self q
  refine List.forall_mem_append.mpr ⟨List.forall_mem_append.mpr
    ⟨?_, allows_between tidy faces part mark member⟩, ?_⟩
  · intro it inside
    exact (Belongs.withField tidy (binary_even tidy part) before it inside).allows
      fun slot here => operand_holds part List.mem_cons_self here
  · intro it inside
    exact (behind it inside).allows fun slot here =>
      operand_holds part (List.mem_cons_of_mem _ (List.mem_singleton_self _)) here

theorem belongs_signed (tidy : c.table.Tidy level rank) (faces : Faces c s)
    (part : c.table.Part (.unary kind marks operand)) (mark : s.token.kind = .punctuation)
    (member : s.token.lit ∈ marks)
    (below : ∀ it ∈ items, Belongs c.table level (.unary kind marks operand) "operand" it) :
    Belongs c.table level (.unary kind marks operand) field
      (r.finish kind field ((s.consume c "operator" s.token.lit false).1 ++ items)) := by
  have own := tidy.parts part
  rw [Expr.tidy, Bool.and_eq_true, List.all_eq_true] at own
  have content := part.mem_contents (List.mem_singleton_self _)
  refine .finish own.1 ⟨_, content, rfl⟩ (List.forall_mem_append.mpr ⟨?_, fun it inside => ?_⟩)
    List.mem_cons_self r
  · refine allows_operator tidy faces part member (own.2 _ member) (isEnd_of_mark mark).2 ?_
    exact ⟨_, content, rfl, List.mem_append_right _ (List.mem_map.mpr ⟨_, member, rfl⟩)⟩
  · exact (below it inside).allows fun slot here =>
      ⟨_, content, rfl, List.mem_append_left _ here⟩

end

def Job.Puts (t : Table) (level : List String) (items : List Item) : Job → Prop
  | .task (.expr e field) | .recover e field => ∀ it ∈ items, Belongs t level e field it
  | .sequence es field => ∀ it ∈ items, Belongs t level (.seq es) field it
  | .task (.copies body _ _ field) => ∀ it ∈ items, Belongs t level body field it
  | .task (.elements elem sep trailing field) =>
      ∀ it ∈ items, Belongs t level (.sepBy elem sep trailing) field it
  | .task (.statements name item closers) =>
      ∀ field, ∀ it ∈ items, Belongs t level (.stmts name item closers) field it
  | .task (.suffixes many all kind built field) =>
      ∀ head, t.Part (.suffixed head many all) → Stem t level head many all kind built →
        ∀ it ∈ items, Belongs t level (.suffixed head many all) field it
  | .task (.operand kind operand ops _ field) =>
      ∀ it ∈ items, Belongs t level (.binary kind operand ops) field it
  | .task (.operators kind operand ops _ left field) =>
      (∀ it ∈ left, Belongs t level (.binary kind operand ops) "" it) →
        ∀ it ∈ items, Belongs t level (.binary kind operand ops) field it

theorem Yields.puts {job : Job} (yields : Yields c job s items r) (tidy : c.table.Tidy level rank)
    (faces : Faces c s) (known : job.Known c.table) : job.Puts c.table level items := by
  induction yields with
  | tok more symbol word => exact belongs_tok tidy faces known symbol
  | leaf more symbol => exact belongs_leaf tidy faces known symbol
  | placeholder returns label => exact List.forall_mem_singleton.mpr ⟨trivial, Or.inl rfl⟩
  | skipped found inner ih =>
      obtain ⟨facing, wrong⟩ := faces.skipTo found
      exact List.forall_mem_cons.mpr ⟨.of_extra wrong.describes _ _, ih facing known⟩
  | spliced found hidden inner ih =>
      exact belongs_spliced tidy found hidden (ih faces (Table.part_body found))
  | node found visible inner ih =>
      exact List.forall_mem_singleton.mpr
        (belongs_node tidy found visible (ih faces (Table.part_body found)) _)
  | seq inner ih => exact ih faces fun e member => known.inner member
  | nil | absent | noElement => exact fun it none => absurd none List.not_mem_nil
  | enough least => exact fun it none => absurd none List.not_mem_nil
  | ended => exact fun _ it none => absurd none List.not_mem_nil
  | cons head rest first second =>
      obtain ⟨atHead, behind⟩ := List.forall_mem_cons.mp known
      exact List.forall_mem_append.mpr
        ⟨belongs_first (first faces atHead), belongs_later (second (head.faces faces) behind)⟩
  | choice member inner ih =>
      exact belongs_alternative member (ih faces (known.inner member))
  | ordered member returns inner ih =>
      exact belongs_alternative member (ih (faces.returns returns) (known.inner member))
  | present inner ih | immediate _ inner ih | distant _ inner ih | sameLine _ inner ih
  | broken _ inner ih => exact ih faces (known.only rfl)
  | recovered _ inner ih | rep inner ih | list inner ih | binary inner ih => exact ih faces known
  | stmts inner ih => exact ih faces known _
  | copy one rest first second | forced one rest first second =>
      exact List.forall_mem_append.mpr ⟨first faces (known.only rfl), second (one.faces faces) known⟩
  | lastElement one ih => exact belongs_element (ih faces (known.only rfl))
  | separated one symbol rest first second =>
      have facing := one.faces faces
      exact List.forall_mem_append.mpr ⟨belongs_element (first faces (known.only rfl)),
        List.forall_mem_append.mpr
          ⟨belongs_separator tidy facing known symbol, second facing.moved known⟩⟩
  | trailing one symbol ih =>
      exact List.forall_mem_append.mpr ⟨belongs_element (ih faces (known.only rfl)),
        belongs_separator tidy (one.faces faces) known symbol⟩
  | dangling one symbol rest first second =>
      have facing := one.faces faces
      exact List.forall_mem_append.mpr ⟨belongs_element (first faces (known.only rfl)),
        List.forall_mem_append.mpr ⟨belongs_separator tidy facing known symbol,
          belongs_element (second facing.moved (known.only rfl))⟩⟩
  | field inner ih => exact belongs_field (ih faces (known.only rfl))
  | statement one rest first second =>
      intro field
      have whole := first faces.flush (known.only rfl)
      exact List.forall_mem_append.mpr ⟨fun it member => (faces.comments it member).belongs,
        List.forall_mem_append.mpr
          ⟨belongs_statement (belongs_markStatement whole),
            second (one.faces faces.flush) known field⟩⟩
  | unexpected skip rest ih =>
      intro field
      obtain ⟨facing, wrong⟩ := faces.flush.skipStatement skip
      exact List.forall_mem_append.mpr ⟨fun it member => (faces.comments it member).belongs,
        List.forall_mem_cons.mpr ⟨.of_extra wrong.describes _ _, ih facing known field⟩⟩
  | suffixed front rest first second =>
      refine second (front.faces faces) ⟨_, known⟩ _ known ?_
      rw [Stem, if_pos rfl]
      exact first faces known.head
  | noSuffix =>
      exact fun head part stem =>
        Belongs.withField tidy (suffixed_even tidy part) (stem.close tidy part)
  | suffix member _ one rest first second =>
      intro head part stem
      exact second (one.faces faces) known head part
        (stem.grow tidy part rfl member (first faces (part.tail member)))
  | onlySuffix member _ one ih =>
      intro head part stem
      exact Belongs.withField tidy (suffixed_even tidy part) (belongs_closed tidy part member
        (stem.allows tidy part member (ih faces (part.tail member))))
  | operand one rest first second =>
      exact second (one.faces faces) known (belongs_operand (first faces (known.only rfl)))
  | noOperator => exact fun left => Belongs.withField tidy (binary_even tidy known) left
  | operator mark member _ _ one rest first second =>
      exact fun left => second (one.faces faces.moved) known (List.forall_mem_singleton.mpr
        (belongs_operator tidy faces known mark member left (first faces.moved known)))
  | unsigned inner ih => exact belongs_unsigned (ih faces (known.only rfl))
  | signed mark member inner ih =>
      exact List.forall_mem_singleton.mpr
        (belongs_signed tidy faces known mark member (ih faces.moved known))

theorem Parsed.yields {o : Outline} {last : State} (parsed : Parsed c o .empty items last)
    (calm : c.speculating = false) :
    Yields c (.task (.expr (.stmts "" (.ref o.statement) []) "")) (State.initial c .empty) items
      last := by
  refine yields_of_run calm ?_ parsed.ran
  rw [(Stands.initial c .empty).2.2.1]
  rfl

theorem mq_part_start : mq.Part (.stmts "" (.ref "_statement") []) :=
  Table.part_body Mq.start_eq

theorem parse_described (window : Nat) (text : Text) :
    ∃ items last, Parsed (Parser.context { window } text) Mq.outline .empty items last ∧
      mq.Describes (Parsed.root (Parser.context { window } text) items last) := by
  obtain ⟨items, last, parsed⟩ := @Parsed.of_lawful (Parser.context { window } text) Mq.outline
    .empty Mq.lawful rfl (fun _ _ _ member => nomatch member)
  refine ⟨items, last, parsed, ?_⟩
  have yields := parsed.yields rfl
  have faces := Faces.initial (Parser.context { window } text) .empty
  have content := Table.mem_contents_of_visible Mq.start_eq rfl
  have puts := yields.puts Mq.tidy faces mq_part_start
  have below : ∀ it ∈ items ++ last.pending,
      mq.Describes it.node ∧ mq.Allows ⟨sourceFile, true⟩ it.field it.node := by
    refine List.forall_mem_append.mpr ⟨fun it member => ?_, fun it member => ?_⟩
    · exact (puts it member).allows fun slot inside => ⟨_, content, rfl, inside⟩
    · exact ((yields.faces faces).comments it member).allows _
  refine (describes_items sourceFile true _ 0 _).mpr
    ⟨by decide, fun it member => (below it member).1, fun _ => ?_⟩
  exact ⟨⟨_, content, rfl⟩, fun it member => (below it member).2⟩

/-- The catalog tells of every node of every tree what stands in it. -/
theorem catalog_describes (window : Nat) (text : Text) :
    ∃ tree, Parser.parse { window } text = .ok tree ∧
      ∀ p ∈ tree.rootNode.walk, p.sub.isError = false → ∀ edge ∈ p.sub.children,
        edge.node.kind ≠ commentSymbol → edge.node.isError = false → edge.node.isMissing = false →
        (∃ entry ∈ mq.catalog, entry.ref = p.sub.ref) ∧
        (∃ entry ∈ mq.catalog, entry.ref = edge.node.ref) ∧
        ∀ entry ∈ mq.catalog, entry.ref = p.sub.ref →
          (edge.field ≠ "" → ∃ refs, (edge.field, refs) ∈ entry.fields ∧ edge.node.ref ∈ refs) ∧
          (edge.field = "" → edge.node.named = true → edge.node.ref ∈ entry.children) := by
  obtain ⟨items, last, parsed, describes⟩ := parse_described window text
  refine ⟨_, parse_eq_of_build (parsed.build_eq Mq.lawful), ?_⟩
  intro p member sound edge child noComment noError noMissing
  have own := describes.of_mem_walk member
  obtain ⟨sub, start⟩ := p
  cases sub with
  | leaf | missing => contradiction
  | branch kind named length children scope =>
      obtain ⟨_, _, inner⟩ := own
      obtain ⟨makes, allows⟩ := inner (by simpa [Subtree.isError, Subtree.kind] using sound)
      have plain : edge.node.extra = false := by
        simp only [Subtree.isError, Subtree.isMissing, beq_eq_false_iff_ne] at noError noMissing
        simp [Subtree.extra, noComment, noError, noMissing]
      rcases allows edge child with extra | ⟨made, place⟩
      · rw [plain] at extra
        exact absurd extra Bool.false_ne_true
      · refine ⟨Table.makes_iff.mp makes, Table.makes_iff.mp made, fun entry listed same => ?_⟩
        rcases place with holds | ⟨bare, anonymous⟩
        · exact holds.listed listed same
        · refine ⟨fun named => absurd bare named, fun _ named => ?_⟩
          rw [anonymous] at named
          exact absurd named Bool.false_ne_true

end Parser

end MqTree
