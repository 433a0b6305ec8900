import MqTree.Proofs.Parser.Document
import MqTree.Proofs.Parser.Entry
import MqTree.Proofs.Parser.Meeting

namespace MqTree.Parser

open Text

/-! A statement that is taken over is what the parser would have made, wherever
the bytes are found that it depends on. -/

structure Renews (c : Context) (given : String) (b : Nat) (sub : Subtree) (it : Item)
    (r : State) : Prop where
  field : it.field = given
  start : it.start = b
  node : (it.node.asStatement (r.lookahead it.stop)).bare = sub.bare
  stands : Stands c [] r
  prevEnd : (r.prevEnd : Int) = b + sub.length
  pending : r.pending = (State.landing c r.prevEnd []).pending
  fresh : r.reuse = .empty

/-- Whatever text has the bytes that the statement at `start` depends on, and
completes no character that is cut short among them, a parse from scratch that
comes to them makes the same of them. -/
def Sure (p : Parser) (text : Text) (start : Nat) (sub : Subtree) : Prop :=
  ∀ ⦃other : Text⦄ ⦃b : Nat⦄, text.Agree start other b (sub.length + sub.scope.lookahead).toNat →
    Rune.StaysTorn text start other b (sub.length + sub.scope.lookahead).toNat →
    ∀ ⦃s : State⦄ ⦃item : Expr⦄ (field : String) (m : Nat), Stands (p.context other) [] s →
      s.pending = [] → s.token.start = b → s.reuse = .empty → (p.context text).Statement item →
      s.canStart (p.context other) item = true ∧
        ((∃ v, run m (p.context other) (.expr item field) s = .halted v) ∨
          ∃ it r, run m (p.context other) (.expr item field) s = .done [it] r ∧
            Renews (p.context other) field b sub it r)

theorem Sure.agree {p : Parser} {text other : Text} {start b : Nat} {sub : Subtree}
    (sure : Sure p text start sub)
    (agree : text.Agree start other b (sub.length + sub.scope.lookahead).toNat)
    (stays : Rune.StaysTorn text start other b (sub.length + sub.scope.lookahead).toNat) :
    Sure p other b sub :=
  fun _ _ more further _ _ field m => sure (agree.trans more) (stays.trans further) field m

namespace Track

/-- A parse that looks no further than to `reach`, and a parse of another text
that has the same bytes from `b` on. -/
def mirror (p : Parser) (text other : Text) (a b : Nat) (index : ReuseIndex) (reach : Nat) :
    Track where
  c := p.context text
  other := other
  a := a
  b := b
  index := index
  Heeds s := s.lexer.reach ≤ reach
  Fails s := s.lexer.reach ≤ reach
  Way _ _ := True

section

variable {p : Parser} {o : Outline} {text other : Text} {a b reach : Nat} {index : ReuseIndex}
  {s s' : State} (agree : text.Agree a other b (reach - a))
  (stays : Rune.StaysTorn text a other b (reach - a))

include agree stays

theorem mirror_matches (rel : (mirror p text other a b index reach).Rel s s')
    (heeds : s.lexer.reach ≤ reach) : (mirror p text other a b index reach).Matches s s' := by
  apply rel.sees
  intro frames stands _
  obtain ⟨_, _, stands', _⟩ := rel.beside
  have inside' := stands'.prevEnd_le
  rw [rel.prevEnd] at inside'
  apply landings_meet agree rel.above stands.prevEnd_le inside' (Or.inl _) (Or.inr stays)
  have seen := stands.seen
  simp only [mirror] at seen ⊢
  omega

theorem mirror_lawful (law : p.table.Lawful o) (index : ReuseIndex) :
    (mirror p text other a b index reach).Lawful o where
  law := law
  back := fun passed heeds => Nat.le_trans passed.reach heeds
  lost := fun further fails => Nat.le_trans further fails
  meet := fun rel heeds => Or.inl (mirror_matches agree stays rel heeds)
  next := fun _ _ _ _ => trivial

theorem mirror_adopts
    (known : ∀ start ≤ text.size, ∀ sub, (Int64.ofNat start, sub) ∈ index.entries →
      Sure p text start sub) (m : Nat) (field : String) {item : Expr} {sub : Subtree}
    {rest : ReuseIndex} (rel : (mirror p text other a b index reach).Rel s s')
    (ready : Ready (p.context text) o s) (pending : s.pending = []) (pending' : s'.pending = [])
    (base : s.atBase = true) (statement : (p.context text).Statement item)
    (taken : s.reuse.take? (Int64.ofNat s.token.start) = some (sub, rest))
    (heeds : (s.behind (p.context text) sub rest).lexer.reach ≤ reach) :
    s'.canStart (p.context other) item = true ∧
      ((∃ v, run m (p.context other) (.expr item field) s' = .halted v) ∨
        ∃ it r, run m (p.context other) (.expr item field) s' = .done [it] r ∧ r.atBase = true ∧
          (mirror p text other a b index reach).Like field field ⟨field, s.token.start, sub⟩
            { it with node := it.node.asStatement (r.lookahead it.stop) } ∧
          (mirror p text other a b index reach).Rel (s.behind (p.context text) sub rest) r) := by
  obtain ⟨frames, standing, stands', _⟩ := rel.beside
  obtain rfl := standing.frames_eq_nil base
  have stands : Stands (p.context text) [] s := standing
  have mine := (ReuseIndex.mem_of_take? taken).1
  have fits := ready.fit s.token.start stands.reached.start_le sub mine
  obtain ⟨behind, ends, left, comments, further, looked⟩ := stands.behind pending rest fits
  have same := mirror_matches agree stays rel (Nat.le_trans further heeds)
  have starts := same.start
  have above := rel.above
  have before := stands.prevEnd_le_start
  have positive := fits.positive
  simp only [mirror] at above starts
  have there : text.Agree s.token.start other s'.token.start
      (sub.length + sub.scope.lookahead).toNat := by
    have dropped := agree.drop (m := s.token.start - a)
    rw [show a + (s.token.start - a) = s.token.start by omega, ← starts] at dropped
    exact dropped.mono (by omega)
  have torn : Rune.StaysTorn text s.token.start other s'.token.start
      (sub.length + sub.scope.lookahead).toNat := by
    have dropped := stays.drop (m := s.token.start - a)
    rw [show a + (s.token.start - a) = s.token.start by omega, ← starts] at dropped
    exact dropped.mono (by omega)
  have sure := known s.token.start stands.reached.start_le sub (rel.offered mine)
  refine (sure there torn field m stands' pending' rfl rel.fresh statement).imp id (Or.imp id ?_)
  rintro ⟨it, r, made, renews⟩
  refine ⟨it, r, made, renews.stands.reached.atBase, ⟨?_, renews.node, Or.inl renews.field⟩,
    ⟨⟨[], behind, renews.stands, trivial, Or.inl ⟨comments, renews.pending⟩⟩, ?_, ?_, ?_,
      renews.fresh⟩⟩
  · have start := renews.start
    simp only [mirror]
    omega
  · simp only [mirror]
    omega
  · have prevEnd := renews.prevEnd
    simp only [mirror]
    omega
  · rw [left]
    exact List.Subset.trans (ReuseIndex.mem_of_take? taken).2 rel.offered

theorem mirror_calm (law : p.table.Lawful o)
    (known : ∀ start ≤ text.size, ∀ sub, (Int64.ofNat start, sub) ∈ index.entries →
      Sure p text start sub) : (mirror p text other a b index reach).Calm o := by
  have lawful := mirror_lawful agree stays law index
  refine ⟨?_, ?_, ?_, ?_⟩
  · exact fun rel ready admitted => lawful.tries rel ready admitted _ _
  · intro n m f g alt s s' r q rel ready admitted _ ran heeds looked
    have follows := lawful.tries (f := f) (g := g) rel ready admitted n m
    rw [ran] at follows
    exact follows.imp id fun failed => failed (Nat.le_trans looked heeds)
  · intro e s s' r q rel ready admitted found heeds looked
    exact skipUpTo_none lawful admitted ready rel found (Nat.le_trans looked heeds)
  · intro m field item s s' sub rest rel ready pending pending' base statement taken heeds
    exact mirror_adopts agree stays known m field rel ready pending pending' base statement
      taken heeds

end

end Track

section

variable {p : Parser} {o : Outline} {text : Text} {index : ReuseIndex} {frames : List Frame}
  {s r : State} {it : Item}

theorem Complete.sure (complete : Complete (p.context text) s it r) (law : p.table.Lawful o)
    (stands : Stands (p.context text) frames s) (fit : index.Fit text.size)
    (offered : s.reuse.entries ⊆ index.entries)
    (known : ∀ start ≤ text.size, ∀ sub, (Int64.ofNat start, sub) ∈ index.entries →
      Sure p text start sub)
    (built : Built (p.context text) s [it] r) :
    Sure p text s.token.start (it.node.asStatement (r.lookahead it.stop)) := by
  obtain rfl := stands.frames_eq_nil complete.before
  obtain ⟨item, given, n, statement, starts, ran⟩ := complete.ran
  obtain ⟨rfl, admitted⟩ := statement.admitted law
  rw [← run_settled (c := p.context text) law stands _ admitted rfl rfl starts] at ran
  obtain ⟨ends, examined, _⟩ := built.examined_eq stands
  have led := complete.led
  have range : ((it.node.asStatement (r.lookahead it.stop)).length +
      (it.node.asStatement (r.lookahead it.stop)).scope.lookahead).toNat =
      r.lexer.reach - s.token.start := by
    simp only [Node.examined, Node.stop] at examined
    omega
  intro other b agree stays t item field m stands' pending' start' fresh' statement'
  obtain ⟨rfl, _⟩ := statement'.admitted law
  rw [range] at agree stays
  have lawful := Track.mirror_lawful agree stays law index
  have calm := Track.mirror_calm agree stays law known
  have ready : Ready (p.context text) o s.settled :=
    ⟨law, ⟨[], stands.settled complete.pending⟩,
      fun start inside sub member => fit start inside sub (offered member)⟩
  have rel : (Track.mirror p text other s.token.start b index r.lexer.reach).Rel s.settled
      t.settled := by
    refine ⟨⟨[], stands.settled complete.pending, stands'.settled pending', trivial,
      Or.inr ⟨complete.pending, pending'⟩⟩, Nat.le_refl _, ?_, offered, fresh'⟩
    simp only [State.settled_prevEnd, Track.mirror]
    omega
  have same := Track.mirror_matches agree stays rel (built.passed stands).reach
  have enters : t.canStart (p.context other) (.ref o.statement) = true := by
    rw [← State.canStart_settled rfl rfl]
    exact (same.canStart rel _).trans ((State.canStart_settled rfl rfl).trans starts)
  have again := @run_settled (p.context other) o t [] law stands' m (.ref o.statement) field
    admitted rfl rfl enters
  have follows := Track.follows lawful (fun _ => calm) n m
    (.expr (f := given) (g := field) (.ref o.statement)) ready admitted rel
  have here : run n (Track.mirror p text other s.token.start b index r.lexer.reach).c
    (.expr (.ref o.statement) given) s.settled = .done [it] r := ran
  rw [here] at follows
  refine ⟨enters, ?_⟩
  rcases follows.single (Nat.le_refl r.lexer.reach) with ⟨v, cut⟩ | ⟨own, r', made, like, next⟩
  · exact Or.inl ⟨v, again.symm.trans cut⟩
  · have ran' : run m (p.context other) (.expr (.ref o.statement) field) t = .done [own] r' :=
      again.symm.trans made
    refine Or.inr ⟨own, r', ran', ?_⟩
    have ready' : Ready (p.context other) o t := by
      refine ⟨law, ⟨[], stands'⟩, ?_⟩
      rw [fresh']
      exact fun _ _ _ member => absurd member List.not_mem_nil
    obtain ⟨_, _, shape, titled, _⟩ :=
      run_titled (c := p.context other) law stands' pending' _ admitted rfl rfl enters ran'
    obtain ⟨rfl, _⟩ := List.cons.inj shape
    obtain ⟨frames', standing, way⟩ :=
      (run_passed ready' (.expr (.ref o.statement) field) admitted ran').stands
    obtain rfl := standing.frames_eq_nil (next.atBase.trans complete.after)
    have moved := run_moves ready' admitted rfl enters ran'
    have before := stands'.prevEnd_le_start
    have start := like.start
    have prevEnd := next.prevEnd
    have onward := complete.moved
    simp only [Track.mirror] at start prevEnd
    refine ⟨titled, ?_, (like.asStatement _ _).node, standing, ?_, ?_, next.fresh⟩
    · omega
    · rw [Subtree.length_asStatement]
      simp only [Item.stop] at ends
      omega
    · rcases way with ⟨reach, trace, _, rfl⟩ | ⟨_, landed⟩
      · exact absurd before (Nat.not_le.mpr moved)
      · exact landed

/-- What a parse builds of what it is offered, a parse from scratch builds too. -/
theorem Parsed.bare_eq {items items' : List Item} {last last' : State} (law : p.table.Lawful o)
    (parsed : Parsed (p.context text) o index items last)
    (parsed' : Parsed (p.context text) o .empty items' last') (fit : index.Fit text.size)
    (known : ∀ start ≤ text.size, ∀ sub, (Int64.ofNat start, sub) ∈ index.entries →
      Sure p text start sub) :
    (root (p.context text) items' last').bare = (root (p.context text) items last).bare := by
  have agree := Agree.refl text 0 (text.size + 1 - 0)
  have stays := Rune.StaysTorn.refl text 0 (text.size + 1 - 0)
  have lawful := Track.mirror_lawful agree stays law index
  have calm := Track.mirror_calm agree stays law known
  obtain ⟨stands, prevEnd, reuse, pending⟩ := Stands.initial (p.context text) index
  obtain ⟨stands', prevEnd', reuse', pending'⟩ := Stands.initial (p.context text) .empty
  have rel : (Track.mirror p text text 0 0 index (text.size + 1)).Rel
      (State.initial (p.context text) index) (State.initial (p.context text) .empty) := by
    refine ⟨⟨[], stands, stands', trivial, Or.inl ⟨?_, ?_⟩⟩, Nat.zero_le _, ?_, ?_, reuse'⟩
    · rw [prevEnd]
      exact pending
    · rw [prevEnd']
      exact pending'
    · rw [prevEnd, prevEnd']
      rfl
    · rw [reuse]
      exact List.Subset.refl _
  obtain ⟨_, _, _, body, admitted⟩ := law.start
  rw [body] at admitted
  have follows : (Track.mirror p text text 0 0 index (text.size + 1)).Follows "" ""
      (.done items last) (.done items' last') := by
    rw [← parsed.ran, ← parsed'.ran]
    exact Track.follows lawful (fun _ => calm) _ _ (.expr (.stmts "" (.ref o.statement) []))
      (initial_ready law fit) admitted rel
  obtain ⟨_, standing, _⟩ := (parsed.built.passed stands).stands
  rcases follows with ⟨v, cut⟩ | follows
  · contradiction
  · obtain ⟨_, _, made, likes, next⟩ := follows standing.reach_le
    obtain ⟨rfl, rfl⟩ := Outcome.done.inj made
    have same := Track.mirror_matches agree stays next standing.reach_le
    have edges := (likes.append same.pending).edges 0 0 rfl
    exact congrArg (Subtree.branch sourceFile true text.size · ⟨0, false⟩) edges

end

end MqTree.Parser
