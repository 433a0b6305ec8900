import MqTree.Proofs.Parser.Built

namespace MqTree.Parser

/-! The statements that a parse marks, and those that it takes over with their
marks. -/

def lastStop (low : Int) (items : List Item) : Int := items.foldl (fun _ it => it.stop) low

theorem lastStop_append (low : Int) (items more : List Item) :
    lastStop low (items ++ more) = lastStop (lastStop low items) more :=
  List.foldl_append

theorem lastStop_cons (low : Int) (first : Item) (rest : List Item) :
    lastStop low (first :: rest) = ((first :: rest).getLast (List.cons_ne_nil first rest)).stop := by
  induction rest generalizing low first with
  | nil => rfl
  | cons next rest ih =>
      rw [List.getLast_cons (List.cons_ne_nil next rest)]
      exact ih first.stop next

theorem lastStop_withField (low : Int) (field : String) (items : List Item) :
    lastStop low (withField field items) = lastStop low items := by
  unfold withField
  split
  · rfl
  · unfold lastStop
    rw [List.foldl_map]
    simp only [Item.stop_withField]

namespace Built

variable {c : Context} {frames : List Frame} {s r : State} {items : List Item}

/-- What is built ends where the last token does. -/
theorem lastStop_eq (built : Built c s items r) (stands : Stands c frames s) :
    lastStop s.prevEnd items = r.prevEnd := by
  induction built generalizing frames with
  | idle stays limit =>
      obtain ⟨reach, trace, _, rfl⟩ := stays
      rfl
  | append first second ihFirst ihSecond =>
      obtain ⟨_, between, _⟩ := (first.passed stands).stands
      rw [lastStop_append, ihFirst stands, ihSecond between]
  | @token s more field kind proper named =>
      have ends := stands.reached.start_le_stop.1
      rw [stands.moved.2.1, State.consume_fst, lastStop_append]
      show (s.token.start : Int) + ((s.token.stop - s.token.start : Nat) : Int) = s.token.stop
      omega
  | missing s field label => exact Int.add_zero _
  | @wrap s r items inner some kind proper field ih =>
      cases items with
      | nil => exact absurd rfl some
      | cons first rest =>
          rw [← ih stands, lastStop_cons _ first rest]
          exact State.stop_finish r kind field first rest
  | relabel inner field ih =>
      rw [lastStop_withField]
      exact ih stands
  | statement complete inner ih =>
      rw [← ih stands]
      simp only [lastStop, List.foldl_cons, List.foldl_nil, Item.stop, Subtree.length_asStatement]
  | @flush s r items led moved inner ih =>
      obtain ⟨first, rest, rfl, _⟩ := led
      rw [← ih stands.flush, lastStop_append, lastStop_cons, lastStop_cons]
  | @reuse s sub rest calm base pending taken fits field =>
      exact (stands.behind pending rest fits).2.1.symm

end Built

def Marked (items : List Item) (n : Node) : Prop :=
  n.isStatement = true ∧ ∃ it ∈ items, n ∈ it.toNode.walk

section

variable {items more : List Item} {n : Node}

theorem marked_append : Marked (items ++ more) n ↔ Marked items n ∨ Marked more n := by
  simp only [Marked, List.mem_append]
  constructor
  · rintro ⟨marked, it, here | there, below⟩
    · exact Or.inl ⟨marked, it, here, below⟩
    · exact Or.inr ⟨marked, it, there, below⟩
  · rintro (⟨marked, it, here, below⟩ | ⟨marked, it, there, below⟩)
    · exact ⟨marked, it, Or.inl here, below⟩
    · exact ⟨marked, it, Or.inr there, below⟩

theorem not_marked_token (field kind : String) (named : Bool) (start : Int) (token : Token) :
    ¬ Marked [⟨field, start, .ofToken kind named token⟩] n := by
  rintro ⟨marked, it, member, below⟩
  rw [List.mem_singleton.mp member] at below
  rw [List.mem_singleton.mp below] at marked
  contradiction

theorem not_marked_comments (comments : ∀ it ∈ items, ∃ token, it = commentItem token) :
    ¬ Marked items n := by
  rintro ⟨marked, it, member, below⟩
  obtain ⟨token, rfl⟩ := comments it member
  exact not_marked_token "" commentSymbol true _ token
    ⟨marked, _, List.mem_singleton_self _, below⟩

theorem marked_children {kind : String} {named : Bool} {length : Int} {scope : Scope} {start : Int}
    (inner : n ∈ (Node.mk (.branch kind named length (items.map (Item.edge start)) scope)
      start).children.flatMap Node.walk) : ∃ it ∈ items, n ∈ it.toNode.walk := by
  have below := children_edges
    ⟨.branch kind named length (items.map (Item.edge start)) scope, start⟩ items
  rw [Node.children, Subtree.children, below] at inner
  obtain ⟨child, member, there⟩ := List.mem_flatMap.mp inner
  obtain ⟨it, present, rfl⟩ := List.mem_map.mp member
  exact ⟨it, present, there⟩

theorem marked_of_finish {s : State} {kind field : String} (marked : Marked [s.finish kind field items] n) :
    Marked items n := by
  obtain ⟨isMarked, it, member, below⟩ := marked
  rw [List.mem_singleton.mp member] at below
  cases items with
  | nil =>
      rw [List.mem_singleton.mp below] at isMarked
      contradiction
  | cons first rest =>
      rw [Node.walk_eq] at below
      rcases List.mem_cons.mp below with rfl | inner
      · contradiction
      · exact ⟨isMarked, marked_children inner⟩

theorem marked_of_withField {field : String} (marked : Marked (withField field items) n) :
    Marked items n := by
  unfold withField at marked
  split at marked
  · exact marked
  · obtain ⟨isMarked, it, member, below⟩ := marked
    obtain ⟨own, present, rfl⟩ := List.mem_map.mp member
    refine ⟨isMarked, own, present, ?_⟩
    rwa [Item.toNode, Item.node_withField, Item.start_withField] at below

theorem marked_asStatement {it : Item} {lookahead : Int}
    (marked : Marked [{ it with node := it.node.asStatement lookahead }] n) :
    n = ⟨it.node.asStatement lookahead, it.start⟩ ∨ Marked [it] n := by
  obtain ⟨isMarked, other, member, below⟩ := marked
  rw [List.mem_singleton.mp member, Item.toNode, Node.walk_eq] at below
  rcases List.mem_cons.mp below with rfl | inner
  · exact Or.inl rfl
  · right
    refine ⟨isMarked, it, List.mem_singleton_self _, ?_⟩
    rw [Node.walk_eq]
    rw [Node.children, Subtree.children_asStatement] at inner
    exact List.mem_cons_of_mem _ inner

end

/-- What a property of statements must bear: to come about when a statement is
marked, from the same of all statements inside it, and to come along with those
that are taken over. No statement depends on more than was looked at. -/
structure Keeps (c : Context) (index : ReuseIndex) (P : Node → Prop) : Prop where
  marked : ∀ {frames : List Frame} {s r : State} {it : Item}, Stands c frames s →
    s.reuse.entries ⊆ index.entries → Complete c s it r → Built c s [it] r →
    (∀ n, Marked [it] n → P n ∧ n.examined ≤ r.lexer.reach) →
    P ⟨it.node.asStatement (r.lookahead it.stop), it.start⟩
  taken : ∀ start sub, start ≤ c.src.size → (Int64.ofNat start, sub) ∈ index.entries →
    ∀ n ∈ (Node.mk sub start).walk, n.isStatement = true →
      P n ∧ n.examined ≤ (Node.mk sub start).examined

section

variable {c : Context} {frames : List Frame} {s r : State} {items : List Item}

/-- A statement depends on all that was looked at when it was marked. -/
theorem Built.examined_eq {it : Item} (built : Built c s [it] r) (stands : Stands c frames s) :
    it.stop = r.prevEnd ∧
      (Node.mk (it.node.asStatement (r.lookahead it.stop)) it.start).examined = r.lexer.reach ∧
      0 < r.lookahead it.stop := by
  have ends : it.stop = r.prevEnd := built.lastStop_eq stands
  obtain ⟨frames', standing, _⟩ := (built.passed stands).stands
  have looked := standing.prevEnd_lt_reach
  simp only [Node.examined, Node.stop, Subtree.length_asStatement, Subtree.scope_asStatement,
    State.lookahead]
  simp only [Item.stop] at ends ⊢
  omega

theorem Built.keeps {index : ReuseIndex} {P : Node → Prop} (built : Built c s items r)
    (stands : Stands c frames s) (keeps : Keeps c index P)
    (offered : s.reuse.entries ⊆ index.entries) :
    ∀ n, Marked items n → P n ∧ n.examined ≤ r.lexer.reach := by
  induction built generalizing frames with
  | idle stays limit =>
      rintro n ⟨_, it, member, _⟩
      contradiction
  | append first second ihFirst ihSecond =>
      intro n marked
      have passed := first.passed stands
      obtain ⟨_, between, _⟩ := passed.stands
      rcases marked_append.mp marked with here | there
      · obtain ⟨holds, within⟩ := ihFirst stands offered n here
        have further := Int.ofNat_le.mpr (second.passed between).reach
        exact ⟨holds, Int.le_trans within further⟩
      · exact ihSecond between (List.Subset.trans passed.reuse offered) n there
  | token more field proper named =>
      intro n marked
      rw [State.consume_fst] at marked
      rcases marked_append.mp marked with comment | token
      · exact absurd comment (not_marked_comments stands.comments)
      · exact absurd token (not_marked_token _ _ _ _ _)
  | missing s field label =>
      rintro n ⟨marked, it, member, below⟩
      rw [List.mem_singleton.mp member] at below
      rw [List.mem_singleton.mp below] at marked
      contradiction
  | wrap inner some proper field ih =>
      intro n marked
      exact ih stands offered n (marked_of_finish marked)
  | relabel inner field ih =>
      intro n marked
      exact ih stands offered n (marked_of_withField marked)
  | statement complete inner ih =>
      intro n marked
      have below := ih stands offered
      rcases marked_asStatement marked with rfl | inside
      · exact ⟨keeps.marked stands offered complete inner below,
          Int.le_of_eq (inner.examined_eq stands).2.1⟩
      · exact below n inside
  | flush led moved inner ih =>
      intro n marked
      rcases marked_append.mp marked with comment | inside
      · exact absurd comment (not_marked_comments stands.comments)
      · exact ih stands.flush offered n inside
  | @reuse s sub rest calm base pending taken fits field =>
      rintro n ⟨marked, it, member, below⟩
      rw [List.mem_singleton.mp member] at below
      obtain ⟨holds, within⟩ := keeps.taken s.token.start sub stands.reached.start_le
        (offered (ReuseIndex.mem_of_take? taken).1) n below marked
      have looked := (stands.behind pending rest fits).2.2.2.2.2
      exact ⟨holds, Int.le_trans within looked⟩

end

end MqTree.Parser
