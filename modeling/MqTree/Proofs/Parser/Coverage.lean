import MqTree.Proofs.Grammar.MqLaw
import MqTree.Proofs.Parser.Document

namespace MqTree

/-! The leaves of a tree are the tokens of its text: none is lost, made twice
or moved. -/

/-- A token without what no leaf tells of it. -/
def Token.unbroken (t : Token) : Token := { t with newlineBefore := false }

namespace Lexer

variable {src : Text} {l m : Lexer}

theorem tokens_of_cursor (n : Nat) (cursor : m.toCursor = l.toCursor) :
    m.tokens src n = l.tokens src n := by
  induction n generalizing l m with
  | zero => rfl
  | succ n ih =>
      obtain ⟨token, lexer⟩ := @next_of_cursor src l m cursor
      have rest := @ih (l.next src).2 (m.next src).2 (by rw [lexer])
      rw [tokens_succ, tokens_succ, token, rest]

def upcoming (src : Text) (l : Lexer) : List Token :=
  ((l.tokens src (src.size + 1)).dropLast).map Token.unbroken

theorem upcoming_of_cursor (cursor : m.toCursor = l.toCursor) : m.upcoming src = l.upcoming src := by
  rw [upcoming, upcoming, tokens_of_cursor _ cursor]

theorem upcoming_eq (inside : l.offset ≤ src.size) :
    l.upcoming src =
      if (l.next src).1.isEnd then []
      else (l.next src).1.unbroken :: (l.next src).2.upcoming src := by
  rw [upcoming, dropLast_tokens inside]
  split <;> rfl

theorem tokens_ends {n : Nat} (inside : l.offset ≤ src.size) (enough : src.size - l.offset < n) :
    ∃ init last, l.tokens src n = init ++ [last] ∧ last.isEnd = true := by
  induction n generalizing l with
  | zero => omega
  | succ n ih =>
      rw [tokens_succ]
      cases ended : (l.next src).1.isEnd with
      | true => exact ⟨[], (l.next src).1, rfl, ended⟩
      | false =>
          have step := next_within inside
          have progress := next_lt inside ended
          have offset := @next_offset src l
          rw [next_stop] at step progress
          obtain ⟨init, last, made, final⟩ := @ih (l.next src).2 (by omega) (by omega)
          refine ⟨(l.next src).1 :: init, last, ?_, final⟩
          simp only [Bool.false_eq_true, if_false]
          rw [made, List.cons_append]

end Lexer

namespace Parser

def tokensOf (t : Tree) (items : List Item) : List Token :=
  items.flatMap fun it => it.toNode.walk.filterMap t.token?

section

variable (t : Tree)

@[simp] theorem tokensOf_append (items more : List Item) :
    tokensOf t (items ++ more) = tokensOf t items ++ tokensOf t more :=
  List.flatMap_append

theorem tokensOf_withField (field : String) (items : List Item) :
    tokensOf t (withField field items) = tokensOf t items := by
  unfold withField
  split
  · rfl
  · unfold tokensOf
    rw [List.flatMap_map]
    simp only [Item.toNode, Item.node_withField, Item.start_withField]

theorem walk_tokens (kind : String) (named : Bool) (length : Int) (scope : Scope) (start : Int)
    (items : List Item) :
    (Node.mk (.branch kind named length (items.map (Item.edge start)) scope) start).walk.filterMap
        t.token? = tokensOf t items := by
  have below := children_edges
    ⟨.branch kind named length (items.map (Item.edge start)) scope, start⟩ items
  rw [Node.walk_eq, List.filterMap_cons]
  simp only [Tree.token?, Node.children, Subtree.children]
  rw [below, List.filterMap_flatMap, List.flatMap_map]
  rfl

theorem tokensOf_finish (s : State) (kind field : String) (items : List Item) :
    tokensOf t [s.finish kind field items] = tokensOf t items := by
  cases items with
  | nil => rfl
  | cons first rest =>
      simp only [tokensOf, List.flatMap_cons, List.flatMap_nil, List.append_nil]
      exact walk_tokens t kind true _ _ first.start (first :: rest)

theorem tokensOf_asStatement (it : Item) (lookahead : Int) :
    tokensOf t [{ it with node := it.node.asStatement lookahead }] = tokensOf t [it] := by
  obtain ⟨field, start, node⟩ := it
  cases node with
  | leaf => rfl
  | missing => rfl
  | branch =>
      simp only [tokensOf, Item.toNode, Subtree.asStatement, List.flatMap_cons, List.flatMap_nil,
        List.append_nil, Node.walk_eq (Node.mk (.branch ..) _), List.filterMap_cons, Tree.token?,
        Node.children, Subtree.children]
      rfl

variable {t}

theorem tokensOf_token {src : Text} {token : Token} (text : t.text = src)
    (placed : (LineIndex.ofText src).point token.start = ⟨token.line, token.column⟩)
    (ordered : token.start ≤ token.stop) (field kind : String) (named : Bool) :
    tokensOf t [⟨field, token.start, .ofToken kind named token⟩] = [token.unbroken] := by
  have stop : ((token.start : Int) + (token.length : Int)).toNat = token.stop := by
    rw [Token.length]
    omega
  simp only [tokensOf, Item.toNode, Subtree.ofToken, List.flatMap_cons, List.flatMap_nil,
    List.append_nil, Node.walk_leaf, List.filterMap_cons, List.filterMap_nil, Tree.token?,
    Node.stop, Subtree.length, Int.toNat_natCast, t.lines_eq, text, placed, stop]
  rfl

end

def State.ahead (t : Tree) (s : State) : List Token :=
  tokensOf t s.pending ++
    if s.token.isEnd then [] else s.token.unbroken :: s.lexer.upcoming t.text

variable {t : Tree} {c : Context} {s r : State} {items : List Item} {frames : List Frame}

theorem Advances.ahead (advances : Advances c s r) (text : t.text = c.src)
    (inside : s.lexer.offset ≤ c.src.size) (counted : s.lexer.place.Counted c.src) :
    r.ahead t = tokensOf t s.pending ++ s.lexer.upcoming t.text := by
  induction advances with
  | token s plain =>
      rw [State.ahead, text, Lexer.upcoming_eq inside]
  | comment s kind rest ih =>
      have within := Lexer.next_within inside
      obtain ⟨next, placed⟩ := Lexer.next_counted counted inside
      have more : (s.lexer.next c.src).1.isEnd = false := by
        rw [Token.isEnd, kind]
        rfl
      rw [ih (by rw [Lexer.next_offset, ← Lexer.next_stop]; exact within.2.2) next, tokensOf_append,
        commentItem, tokensOf_token text placed within.2.1, text, Lexer.upcoming_eq inside, more,
        List.append_assoc]
      rfl

theorem Stays.ahead (stays : Stays s r) : r.ahead t = s.ahead t := by
  obtain ⟨reach, trace, _, rfl⟩ := stays
  simp only [State.ahead, @Lexer.upcoming_of_cursor t.text s.lexer ⟨s.lexer.toCursor, reach⟩ rfl]

/-- What is built holds the tokens that are no longer ahead. -/
theorem Built.tokens (built : Built c s items r) (text : t.text = c.src)
    (stands : Stands c frames s) (fresh : s.reuse.entries = []) :
    tokensOf t items ++ r.ahead t = s.ahead t := by
  induction built generalizing frames with
  | idle stays limit => exact stays.ahead
  | append first second ihFirst ihSecond =>
      have passed := first.passed stands
      obtain ⟨_, between, _⟩ := passed.stands
      have none : _ = [] := List.eq_nil_of_subset_nil (fresh ▸ passed.reuse)
      rw [tokensOf_append, List.append_assoc, ihSecond between none, ihFirst stands fresh]
  | @token s more field kind proper named =>
      have reached := stands.reached
      have ends := reached.start_le_stop
      have inside : s.lexer.offset ≤ c.src.size := by
        rw [reached.offset]
        exact ends.2
      have next := (State.moved_advances inside).ahead text inside reached.counted
      rw [next, State.consume_fst, tokensOf_append, tokensOf_token text reached.placed ends.1,
        State.ahead, more, List.append_assoc]
      rfl
  | missing s field label => rfl
  | wrap inner some proper field ih =>
      rw [tokensOf_finish]
      exact ih stands fresh
  | relabel inner field ih =>
      rw [tokensOf_withField]
      exact ih stands fresh
  | statement complete inner ih =>
      rw [tokensOf_asStatement]
      exact ih stands fresh
  | flush led moved inner ih =>
      rw [tokensOf_append, List.append_assoc, ih stands.flush fresh]
      rfl
  | reuse calm base pending taken fits field =>
      have member := (ReuseIndex.mem_of_take? taken).1
      rw [fresh] at member
      contradiction

theorem Parsed.tokens {o : Outline} {last : State} (parsed : Parsed c o .empty items last)
    (text : t.text = c.src) (root : t.root = Parsed.root c items last) :
    t.rootNode.walk.filterMap t.token? = Lexer.initial.upcoming c.src := by
  obtain ⟨stands, _, reuse, _⟩ := Stands.initial c .empty
  have all := parsed.built.tokens text stands (by rw [reuse]; rfl)
  have start := (State.initial_advances c .empty).ahead text (Nat.zero_le _)
    (Place.counted_origin c.src)
  have rest : last.ahead t = tokensOf t last.pending := by
    rw [State.ahead, parsed.ended]
    exact List.append_nil _
  rw [start, rest, ← tokensOf_append, text] at all
  rw [Tree.rootNode, root]
  exact (walk_tokens t sourceFile true _ _ 0 _).trans all

/-- The leaves of a parsed text, read as tokens, are all its tokens in order. -/
theorem leaves_eq_tokens (window : Nat) (text : Text) :
    ∃ tree init last, Parser.parse { window } text = .ok tree ∧
      Lexer.tokenize text 0 = .ok (init ++ [last]) ∧ last.isEnd = true ∧
      tree.rootNode.walk.filterMap tree.token? = init.map Token.unbroken := by
  obtain ⟨items, state, parsed⟩ := @Parsed.of_lawful (Parser.context { window } text) Mq.outline
    .empty Mq.lawful rfl (fun _ _ _ member => nomatch member)
  obtain ⟨init, last, made, ended⟩ := @Lexer.tokens_ends text .initial (text.size + 1)
    (Nat.zero_le _) (by omega)
  refine ⟨_, init, last, parse_eq_of_build (parsed.build_eq Mq.lawful), ?_, ended, ?_⟩
  · rw [Lexer.tokenize, Lexer.start, if_pos ⟨Int.le_refl 0, Int.natCast_nonneg _⟩, ← made]
    rfl
  · rw [parsed.tokens rfl rfl, Lexer.upcoming]
    show (((Lexer.initial.tokens text (text.size + 1)).dropLast).map Token.unbroken) = _
    rw [made, List.dropLast_concat]

end Parser

end MqTree
