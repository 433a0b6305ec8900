import Mathlib.Data.List.Forall2
import MqTree.Proofs.Parser.Loops
import MqTree.Proofs.Tree.Bare

namespace MqTree.Parser

/-! Two texts that are parsed side by side, the second one from scratch. -/

/-- A parse of the text of `c` from `a` on, and a parse of `other` from `b` on
that is to go the same way. -/
structure Track where
  c : Context
  other : Text
  a : Nat
  b : Nat
  index : ReuseIndex
  /-- The states up to which the first parse is followed. -/
  Heeds : State → Prop
  Fails : State → Prop
  Way : Nat → List Frame → Prop

namespace Track

def d (p : Track) : Context := { p.c with src := p.other }

variable (p : Track)

/-- The same item, but for its position, how far was looked to build it, and
that one was given the field `f` where the other was given `g`. -/
structure Like (f g : String) (x y : Item) : Prop where
  start : y.start = p.b + (x.start - p.a)
  node : y.node.bare = x.node.bare
  field : y.field = x.field ∨ x.field = f ∧ y.field = g

def Likes (f g : String) : List Item → List Item → Prop := List.Forall₂ (p.Like f g)

variable {p} {f g h : String} {x y : Item} {xs ys : List Item}

theorem Like.stop (like : p.Like f g x y) : y.stop = p.b + (x.stop - p.a) := by
  have start := like.start
  have length := Subtree.length_eq_of_bare_eq like.node
  simp only [Item.stop]
  omega

theorem Like.same (like : p.Like h h x y) : y.field = x.field := by
  rcases like.field with same | ⟨here, there⟩
  · exact same
  · rw [here, there]

theorem Like.any (like : p.Like h h x y) : p.Like f g x y :=
  ⟨like.start, like.node, Or.inl like.same⟩

theorem Likes.nil : p.Likes f g [] [] := List.Forall₂.nil

theorem Likes.single (like : p.Like f g x y) : p.Likes f g [x] [y] := .cons like .nil

theorem Likes.any (likes : p.Likes h h xs ys) : p.Likes f g xs ys :=
  List.Forall₂.imp (fun _ _ like => like.any) likes

theorem Likes.append {xs' ys' : List Item} (first : p.Likes f g xs ys)
    (second : p.Likes f g xs' ys') : p.Likes f g (xs ++ xs') (ys ++ ys') :=
  List.rel_append first second

private theorem Like.takesField (like : p.Like h h x y) : y.takesField = x.takesField := by
  rw [Item.takesField, Item.takesField, like.same, Subtree.kind_eq_of_bare_eq like.node]

private theorem Item.withField_empty (x : Item) : x.withField "" = x := by
  unfold Item.withField
  split
  next takes =>
    obtain ⟨field, start, node⟩ := x
    simp only [Item.takesField, Bool.and_eq_true, beq_iff_eq] at takes
    rw [takes.1.1]
  next => rfl

private theorem withField_eq_map (field : String) (items : List Item) :
    withField field items = items.map (Item.withField field) := by
  unfold withField
  split
  next none =>
    rw [none]
    induction items with
    | nil => rfl
    | cons it rest ih => rw [List.map_cons, ← ih, Item.withField_empty]
  next => rfl

theorem Likes.withField (likes : p.Likes h h xs ys) :
    p.Likes f g (Parser.withField f xs) (Parser.withField g ys) := by
  rw [withField_eq_map, withField_eq_map]
  induction likes with
  | nil => exact .nil
  | cons like rest ih =>
      refine .cons ⟨?_, ?_, ?_⟩ ih
      · rw [Item.start_withField, Item.start_withField, like.start]
      · rw [Item.node_withField, Item.node_withField, like.node]
      · unfold Item.withField
        rw [like.takesField]
        split
        · exact Or.inr ⟨rfl, rfl⟩
        · exact Or.inl like.same

theorem Likes.edges (likes : p.Likes h h xs ys) (start start' : Int)
    (shifted : start' = p.b + (start - p.a)) :
    Subtree.bareAll (ys.map (Item.edge start')) = Subtree.bareAll (xs.map (Item.edge start)) := by
  rw [Subtree.bareAll_eq_map, Subtree.bareAll_eq_map]
  induction likes with
  | nil => rfl
  | cons like rest ih =>
      rw [List.map_cons, List.map_cons, List.map_cons, List.map_cons, ih]
      simp only [Item.edge, like.same, like.node, like.start, shifted]
      congr 2
      omega

private theorem Likes.getLast (likes : p.Likes h h xs ys) (some : xs ≠ []) (some' : ys ≠ []) :
    p.Like h h (xs.getLast some) (ys.getLast some') := by
  induction likes with
  | nil => exact absurd rfl some
  | @cons x y xs ys like rest ih =>
      cases rest with
      | nil => exact like
      | cons next more =>
          rw [List.getLast_cons (List.cons_ne_nil _ _), List.getLast_cons (List.cons_ne_nil _ _)]
          exact ih _ _

theorem Likes.finish (likes : p.Likes h h xs ys) {s s' : State}
    (prevEnd : (s'.prevEnd : Int) = p.b + (s.prevEnd - p.a)) (kind f g : String) :
    p.Like f g (s.finish kind f xs) (s'.finish kind g ys) := by
  have last := fun some some' => (likes.getLast some some').stop
  have edges := likes.edges
  cases likes with
  | nil => exact ⟨prevEnd, rfl, Or.inr ⟨rfl, rfl⟩⟩
  | @cons x y xs ys like rest =>
      refine ⟨like.start, ?_, Or.inr ⟨rfl, rfl⟩⟩
      have stop := last (List.cons_ne_nil x xs) (List.cons_ne_nil y ys)
      have children := edges x.start y.start like.start
      have start := like.start
      simp only [State.finish, Subtree.node, Subtree.bare, children]
      congr 1
      omega

theorem Like.asStatement (like : p.Like f g x y) (m n : Int) :
    p.Like f g { x with node := x.node.asStatement m } { y with node := y.node.asStatement n } :=
  ⟨like.start, Subtree.asStatement_bare_eq like.node m n, like.field⟩

variable (p)

structure Rel (s s' : State) : Prop where
  beside : ∃ frames, Stands p.c frames s ∧ Stands p.d frames s' ∧ p.Way s.prevEnd frames ∧
    (s.pending = (State.landing p.c s.prevEnd frames).pending ∧
        s'.pending = (State.landing p.d s'.prevEnd frames).pending ∨
      s.pending = [] ∧ s'.pending = [])
  above : p.a ≤ s.prevEnd
  prevEnd : s'.prevEnd = p.b + (s.prevEnd - p.a)
  offered : s.reuse.entries ⊆ p.index.entries
  fresh : s'.reuse = .empty

structure Matches (s s' : State) : Prop where
  kind : s'.token.kind = s.token.kind
  lit : s'.token.lit = s.token.lit
  start : s'.token.start = p.b + (s.token.start - p.a)
  stop : s'.token.stop = p.b + (s.token.stop - p.a)
  newline : s'.token.newlineBefore = s.token.newlineBefore
  text : s'.token.text p.other = s.token.text p.c.src
  pending : p.Likes "" "" s.pending s'.pending

/-- The second text is over, and the first parse takes no more tokens as far as
it is followed. -/
structure Parts (s s' : State) : Prop where
  ended : s'.token.isEnd = true
  stuck : ∀ r, Passed p.c s r → s.token.start < r.prevEnd → ¬ p.Heeds r
  calm : ∀ r, ¬ p.Fails r

structure Lawful (o : Outline) : Prop where
  law : p.c.table.Lawful o
  back : ∀ {s r : State}, Passed p.c s r → p.Heeds r → p.Heeds s
  lost : ∀ {s r : State}, s.lexer.reach ≤ r.lexer.reach → p.Fails r → p.Heeds s
  meet : ∀ {s s' : State}, p.Rel s s' → p.Heeds s → p.Matches s s' ∨ p.Parts s s'
  next : ∀ {s : State} {frames : List Frame}, Stands p.c frames s → p.Way s.prevEnd frames →
    s.token.isEnd = false → p.Heeds (s.moved p.c) → p.Way s.token.stop s.lexer.frames

variable {p} {s s' r r' : State}

theorem Rel.prevEnd_eq (rel : p.Rel s s') : (s'.prevEnd : Int) = p.b + (s.prevEnd - p.a) := by
  have above := rel.above
  have prevEnd := rel.prevEnd
  omega

theorem Rel.atBase (rel : p.Rel s s') : s'.atBase = s.atBase := by
  obtain ⟨frames, stands, stands', _⟩ := rel.beside
  rw [stands.reached.atBase, stands'.reached.atBase]

theorem Rel.stays (rel : p.Rel s s') (stays : Stays s r) (stays' : Stays s' r')
    (limit : r.lexer.reach ≤ p.c.src.size + 1) (limit' : r'.lexer.reach ≤ p.other.size + 1) :
    p.Rel r r' := by
  obtain ⟨⟨frames, stands, stands', way, pending⟩, above, prevEnd, offered, fresh⟩ := rel
  have standing := stands.stays stays limit
  have standing' := stands'.stays stays' limit'
  obtain ⟨reach, trace, _, rfl⟩ := stays
  obtain ⟨reach', trace', _, rfl⟩ := stays'
  exact ⟨⟨frames, standing, standing', way, pending⟩, above, prevEnd, offered, fresh⟩

theorem Rel.log (rel : p.Rel s s') (e e' : Event) : p.Rel (s.log e) (s'.log e') := by
  obtain ⟨frames, stands, stands', _⟩ := rel.beside
  exact rel.stays (.log s e) (.log s' e') stands.reach_le stands'.reach_le

theorem Rel.flush (rel : p.Rel s s') :
    p.Rel { s with pending := [] } { s' with pending := [] } := by
  obtain ⟨⟨frames, stands, stands', way, _⟩, above, prevEnd, offered, fresh⟩ := rel
  exact ⟨⟨frames, stands.flush, stands'.flush, way, Or.inr ⟨rfl, rfl⟩⟩, above, prevEnd, offered,
    fresh⟩

namespace Matches

theorem symbol (same : p.Matches s s') : s'.token.symbol = s.token.symbol := by
  rw [Token.symbol, Token.symbol, same.kind, same.lit]

theorem isEnd (same : p.Matches s s') : s'.token.isEnd = s.token.isEnd := by
  rw [Token.isEnd, Token.isEnd, same.kind]

theorem isKeyword (same : p.Matches s s') (word : String) :
    s'.token.isKeyword word = s.token.isKeyword word := by
  rw [Token.isKeyword, Token.isKeyword, same.kind, same.lit]

theorem looksLike (same : p.Matches s s') (rel : p.Rel s s') : LooksLike p.c s p.d s' := by
  obtain ⟨frames, stands, stands', _⟩ := rel.beside
  refine ⟨rfl, ?_, ?_, same.newline, ?_⟩
  · rw [stands.reached.terminal, stands'.reached.terminal, same.symbol]
    rfl
  · intro words
    rw [State.accepts, State.accepts]
    have text : s'.token.text p.d.src = s.token.text p.c.src := same.text
    rw [text]
  · have start := same.start
    have prevEnd := rel.prevEnd
    have above := rel.above
    have before := stands.prevEnd_le_start
    rw [Bool.eq_iff_iff, beq_iff_eq, beq_iff_eq]
    omega

theorem canStart (same : p.Matches s s') (rel : p.Rel s s') (e : Expr) :
    s'.canStart p.d e = s.canStart p.c e :=
  (same.looksLike rel).canStart e

theorem skippable (same : p.Matches s s') : s'.skippable = s.skippable := by
  rw [State.skippable, State.skippable, same.isEnd, same.newline, same.isKeyword, same.kind,
    same.lit]

theorem atListEnd (same : p.Matches s s') (closers : List String) :
    s'.atListEnd closers = s.atListEnd closers := by
  rw [State.atListEnd, State.atListEnd, same.isEnd, same.symbol]

theorem leaf (same : p.Matches s s') (rel : p.Rel s s') (f g kind : String) (named : Bool) :
    p.Likes f g (s.consume p.c f kind named).1 (s'.consume p.d g kind named).1 := by
  obtain ⟨frames, stands, _⟩ := rel.beside
  have above := rel.above
  have before := stands.prevEnd_le_start
  have ends := stands.reached.start_le_stop.1
  have start := same.start
  have stop := same.stop
  rw [State.consume_fst, State.consume_fst]
  refine Likes.append same.pending.any (.single ⟨?_, ?_, Or.inr ⟨rfl, rfl⟩⟩)
  · simp only []
    omega
  · have length : s'.token.length = s.token.length := by
      rw [Token.length, Token.length]
      omega
    simp only [Subtree.ofToken, length, same.kind, same.lit]

end Matches

theorem Rel.moved {o : Outline} (lawful : p.Lawful o) (rel : p.Rel s s') (same : p.Matches s s')
    (more : s.token.isEnd = false) (heeds : p.Heeds (s.moved p.c)) :
    p.Rel (s.moved p.c) (s'.moved p.d) := by
  obtain ⟨⟨frames, stands, stands', way, _⟩, above, prevEnd, offered, fresh⟩ := rel
  obtain ⟨standing, ends, kept, landed, _⟩ := stands.moved
  obtain ⟨standing', ends', kept', landed', _⟩ := stands'.moved
  have opened : s'.lexer.frames = s.lexer.frames := by
    rw [stands.reached.opened, stands'.reached.opened, same.lit]
  have before := stands.prevEnd_le_start
  have within := stands.reached.start_le_stop.1
  have next := lawful.next stands way more heeds
  rw [opened] at standing' landed'
  refine ⟨⟨s.lexer.frames, standing, standing', ?_, Or.inl ⟨?_, ?_⟩⟩, ?_, ?_, ?_, ?_⟩
  · rw [ends]
    exact next
  · rw [ends]
    exact landed
  · rw [ends']
    exact landed'
  · rw [ends]
    omega
  · rw [ends, ends']
    exact same.stop
  · rw [kept]
    exact offered
  · rw [kept', fresh]

/-! ### Outcomes -/

def Sides (c : Context) (s : State) : Outcome → Prop
  | .done _ r => Passed c s r
  | .failed r => s.lexer.reach ≤ r.lexer.reach
  | .halted _ => True

variable (p)

/-- The second outcome is the same, unless the second parse is cut short or the
first one goes further than it is followed. -/
def Follows (f g : String) (o o' : Outcome) : Prop :=
  (∃ v, o' = .halted v) ∨
    match o with
    | .done items r =>
        p.Heeds r → ∃ items' r', o' = .done items' r' ∧ p.Likes f g items items' ∧ p.Rel r r'
    | .failed r => p.Fails r → ∃ r', o' = .failed r'
    | .halted _ => True

variable {p} {o : Outline} {first first' : Outcome} {k k' : List Item → State → Outcome}

theorem Sides.bind {c : Context} (sides : Sides c s first)
    (next : ∀ items r, first = .done items r → Sides c r (k items r)) :
    Sides c s (first.bind k) := by
  cases first with
  | done items r =>
      have later := next items r rfl
      rw [Outcome.bind_done]
      cases rest : k items r with
      | done more q =>
          rw [rest] at later
          exact Passed.trans sides later
      | failed q =>
          rw [rest] at later
          exact Nat.le_trans (Passed.reach sides) later
      | halted v => trivial
  | failed r => exact sides
  | halted v => trivial

theorem Sides.of_ends {c : Context} {fuel limit : Nat} {made : List Item → State → Prop}
    (ends : Ends c s fuel limit made first) (passed : ∀ items r, made items r → Passed c s r) :
    Sides c s first := by
  cases first with
  | done items r => exact passed items r ends
  | failed r => exact ends.reach
  | halted v => trivial

theorem Sides.after {c : Context} (sides : Sides c s first) (items : List Item) :
    Sides c s (first.after items) := by
  cases first with
  | done more r => exact sides
  | failed r => exact sides
  | halted v => trivial

theorem Sides.behind {c : Context} (passed : Passed c s r) (sides : Sides c r first) :
    Sides c s first := by
  cases first with
  | done items q => exact passed.trans sides
  | failed q => exact Nat.le_trans passed.reach sides
  | halted v => trivial

namespace Follows

theorem done (likes : p.Likes f g xs ys) (rel : p.Rel r r') :
    p.Follows f g (.done xs r) (.done ys r') :=
  Or.inr fun _ => ⟨ys, r', rfl, likes, rel⟩

theorem failed : p.Follows f g (.failed r) (.failed r') := Or.inr fun _ => ⟨r', rfl⟩

theorem when
    (done : ∀ items r, first = .done items r → p.Heeds r → p.Follows f g first first')
    (failed : ∀ r, first = .failed r → p.Fails r → p.Follows f g first first') :
    p.Follows f g first first' := by
  cases made : first with
  | done items r =>
      by_cases heeds : p.Heeds r
      · rw [← made]
        exact done items r made heeds
      · exact Or.inr fun other => absurd other heeds
  | failed r =>
      by_cases fails : p.Fails r
      · rw [← made]
        exact failed r made fails
      · exact Or.inr fun other => absurd other fails
  | halted v => exact Or.inr trivial

theorem heed (lawful : p.Lawful o) (sides : Sides p.c s first)
    (follows : p.Heeds s → p.Follows f g first first') : p.Follows f g first first' := by
  refine when ?_ ?_
  · intro items r made heeds
    rw [made] at sides
    exact follows (lawful.back sides heeds)
  · intro r made fails
    rw [made] at sides
    exact follows (lawful.lost sides fails)

theorem bind {f' g' : String} (lawful : p.Lawful o) (follows : p.Follows f g first first')
    (sides : ∀ items r, first = .done items r → Sides p.c r (k items r))
    (next : ∀ items r items' r', first = .done items r → p.Likes f g items items' → p.Rel r r' →
      p.Follows f' g' (k items r) (k' items' r')) :
    p.Follows f' g' (first.bind k) (first'.bind k') := by
  rcases follows with ⟨v, rfl⟩ | follows
  · exact Or.inl ⟨v, rfl⟩
  · cases first with
    | done items r =>
        rw [Outcome.bind_done]
        apply heed lawful (sides items r rfl)
        intro heeds
        obtain ⟨items', r', rfl, likes, rel⟩ := follows heeds
        exact next items r items' r' rfl likes rel
    | failed r =>
        refine Or.inr fun fails => ?_
        obtain ⟨r', rfl⟩ := follows fails
        exact ⟨r', rfl⟩
    | halted v => exact Or.inr trivial

theorem after (follows : p.Follows f g first first') (likes : p.Likes f g xs ys) :
    p.Follows f g (first.after xs) (first'.after ys) := by
  rcases follows with ⟨v, rfl⟩ | follows
  · exact Or.inl ⟨v, rfl⟩
  · cases first with
    | done items r =>
        refine Or.inr fun heeds => ?_
        obtain ⟨items', r', rfl, more, rel⟩ := follows heeds
        exact ⟨_, r', rfl, likes.append more, rel⟩
    | failed r =>
        refine Or.inr fun fails => ?_
        obtain ⟨r', rfl⟩ := follows fails
        exact ⟨r', rfl⟩
    | halted v => exact Or.inr trivial

theorem andThen {k k' : State → Outcome} (lawful : p.Lawful o)
    (follows : p.Follows f g first first')
    (sides : ∀ items r, first = .done items r → Sides p.c r (k r))
    (next : ∀ items r r', first = .done items r → p.Rel r r' → p.Follows f g (k r) (k' r')) :
    p.Follows f g (first.andThen k) (first'.andThen k') :=
  follows.bind lawful (fun items r made => (sides items r made).after items)
    fun items r _ r' made likes rel => (next items r r' made rel).after likes

/-- Where the parses part, none that takes a token is followed. -/
theorem of_parts (parts : p.Parts s s') (sides : Sides p.c s first)
    (moves : ∀ items r, first = .done items r → s.token.start < r.prevEnd) :
    p.Follows f g first first' := by
  cases first with
  | done items r => exact Or.inr fun heeds => absurd heeds (parts.stuck r sides (moves items r rfl))
  | failed r => exact Or.inr fun fails => absurd fails (parts.calm r)
  | halted v => exact Or.inr trivial

theorem of_parts_bind (parts : p.Parts s s') (sides : Sides p.c s first)
    (later : ∀ items r, first = .done items r → Sides p.c r (k items r))
    (moves : ∀ items r, first = .done items r → s.token.start < r.prevEnd) :
    p.Follows f g (first.bind k) first' := by
  apply of_parts parts (sides.bind later)
  intro more q made
  cases first with
  | done items r =>
      have passed := later items r rfl
      rw [Outcome.bind_done] at made
      rw [made] at passed
      exact Nat.lt_of_lt_of_le (moves items r rfl) passed.prevEnd
  | failed r => contradiction
  | halted v => contradiction

theorem any (follows : p.Follows h h first first') : p.Follows f g first first' := by
  rcases follows with halted | follows
  · exact Or.inl halted
  · cases first with
    | done items r =>
        refine Or.inr fun heeds => ?_
        obtain ⟨items', r', made, likes, rel⟩ := follows heeds
        exact ⟨items', r', made, likes.any, rel⟩
    | failed r => exact Or.inr follows
    | halted v => exact Or.inr trivial

end Follows

end Track

end MqTree.Parser
