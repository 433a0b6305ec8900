import MqTree.Proofs.Parser.Standing

namespace MqTree.Parser

/-! How the items of a parse come about. Every run of the parser that ends well
leaves such a history, and what is true of all items is proved along it. -/

namespace Item

@[simp] theorem start_withField (field : String) (it : Item) :
    (it.withField field).start = it.start := by
  unfold withField
  split <;> rfl

@[simp] theorem node_withField (field : String) (it : Item) :
    (it.withField field).node = it.node := by
  unfold withField
  split <;> rfl

@[simp] theorem stop_withField (field : String) (it : Item) :
    (it.withField field).stop = it.stop := by
  rw [stop, stop, start_withField, node_withField]

def toNode (it : Item) : Node := ⟨it.node, it.start⟩

end Item

theorem children_edges (n : Node) (items : List Item) :
    (items.map (Item.edge n.start)).map n.child = items.map Item.toNode := by
  rw [List.map_map]
  apply List.map_congr_left
  intro it _
  simp only [Function.comp, Item.edge, Item.toNode, Node.child, Node.mk.injEq, true_and]
  omega

theorem State.stop_finish (s : State) (kind field : String) (first : Item) (rest : List Item) :
    (s.finish kind field (first :: rest)).stop =
      ((first :: rest).getLast (List.cons_ne_nil first rest)).stop := by
  show first.start + (((first :: rest).getLast (List.cons_ne_nil first rest)).stop - first.start) = _
  omega

def Led (start : Int) (items : List Item) : Prop :=
  ∃ first rest, items = first :: rest ∧ first.start = start

namespace Led

variable {start : Int} {items : List Item}

theorem ne_nil (led : Led start items) : items ≠ [] := by
  obtain ⟨first, rest, rfl, _⟩ := led
  exact List.cons_ne_nil first rest

theorem append (led : Led start items) (more : List Item) : Led start (items ++ more) := by
  obtain ⟨first, rest, rfl, here⟩ := led
  exact ⟨first, rest ++ more, rfl, here⟩

theorem withField (led : Led start items) (field : String) :
    Led start (Parser.withField field items) := by
  obtain ⟨first, rest, rfl, here⟩ := led
  unfold Parser.withField
  split
  · exact ⟨first, rest, rfl, here⟩
  · exact ⟨first.withField field, rest.map _, rfl, by rw [Item.start_withField, here]⟩

theorem finish (led : Led start items) (s : State) (kind field : String) :
    Led start [s.finish kind field items] := by
  obtain ⟨first, rest, rfl, here⟩ := led
  exact ⟨_, [], rfl, here⟩

end Led

namespace Spread

variable {low high : Int} {items : List Item}

theorem withField (spread : Spread low high items) (field : String) :
    Spread low high (Parser.withField field items) := by
  unfold Parser.withField
  split
  · exact spread
  · induction items generalizing low with
    | nil => exact spread
    | cons it rest ih =>
        rw [List.map_cons, Spread, Item.start_withField, Item.node_withField, Item.stop_withField]
        exact ⟨spread.1, spread.2.1, ih spread.2.2⟩

/-- Items fill no more than what is between the first and the last of them. -/
theorem tight {first : Item} {rest : List Item} (spread : Spread low high (first :: rest)) :
    Spread first.start ((first :: rest).getLast (List.cons_ne_nil first rest)).stop
        (first :: rest) ∧
      ((first :: rest).getLast (List.cons_ne_nil first rest)).stop ≤ high := by
  induction rest generalizing low first with
  | nil => exact ⟨⟨Int.le_refl _, spread.2.1, Int.le_refl _⟩, spread.2.2⟩
  | cons next rest ih =>
      obtain ⟨inner, below⟩ := ih spread.2.2
      rw [List.getLast_cons (List.cons_ne_nil next rest)]
      exact ⟨⟨Int.le_refl _, spread.2.1, inner.mono spread.2.2.1 (Int.le_refl _)⟩, below⟩

theorem finish (spread : Spread low high items) (some : items ≠ []) {kind : String}
    (proper : kind ≠ missingKind) (s : State) (field : String) :
    Spread low high [s.finish kind field items] := by
  cases items with
  | nil => exact absurd rfl some
  | cons first rest =>
      obtain ⟨inner, below⟩ := spread.tight
      have children := inner.soundFrom first.start
      rw [Int.sub_self] at children
      refine ⟨spread.1, ⟨proper, children⟩, ?_⟩
      rw [State.stop_finish]
      exact below

end Spread

def Context.Statement (c : Context) (item : Expr) : Prop :=
  ∃ rule, c.table.rule? c.table.start = some rule ∧ rule.body = .stmts "" item []

/-- A run that made a statement, outside of interpolated strings from its first
token to the one behind it. -/
structure Complete (c : Context) (s : State) (it : Item) (r : State) : Prop where
  calm : c.speculating = false
  ran : ∃ item field fuel, c.Statement item ∧ s.canStart c item = true ∧
    run fuel c (.expr item field) s = .done [it] r
  pending : s.pending = []
  before : s.atBase = true
  after : r.atBase = true
  led : it.start = s.token.start
  moved : s.token.start < r.prevEnd

/-- The items that a parse makes on its way from one state to another. -/
inductive Built (c : Context) : State → List Item → State → Prop
  | idle {s r : State} (stays : Stays s r) (limit : r.lexer.reach ≤ c.src.size + 1) :
      Built c s [] r
  | append {s r q : State} {items more : List Item} (first : Built c s items r)
      (second : Built c r more q) : Built c s (items ++ more) q
  | token {s : State} (more : s.token.isEnd = false) (field : String) {kind : String}
      (proper : kind ≠ missingKind) (named : Bool) :
      Built c s (s.consume c field kind named).1 (s.moved c)
  | missing (s : State) (field label : String) :
      Built c s [⟨field, s.prevEnd, .placeholder label⟩] s
  | wrap {s r : State} {items : List Item} (inner : Built c s items r) (some : items ≠ [])
      {kind : String} (proper : kind ≠ missingKind) (field : String) :
      Built c s [r.finish kind field items] r
  | relabel {s r : State} {items : List Item} (inner : Built c s items r) (field : String) :
      Built c s (withField field items) r
  | statement {s r : State} {it : Item} (complete : Complete c s it r)
      (inner : Built c s [it] r) :
      Built c s [{ it with node := it.node.asStatement (r.lookahead it.stop) }] r
  /-- Comments that are handed on before the token is taken. -/
  | flush {s r : State} {items : List Item} (led : Led s.token.start items)
      (moved : s.token.start < r.prevEnd) (inner : Built c { s with pending := [] } items r) :
      Built c s (s.pending ++ items) r
  | reuse {s : State} {sub : Subtree} {rest : ReuseIndex} (calm : c.speculating = false)
      (base : s.atBase = true) (pending : s.pending = [])
      (taken : s.reuse.take? (Int64.ofNat s.token.start) = some (sub, rest))
      (fits : Fits c.src.size s.token.start sub) (field : String) :
      Built c s [⟨field, s.token.start, sub⟩] (s.behind c sub rest)

structure Passed (c : Context) (s r : State) : Prop where
  stands : ∃ frames, Stands c frames r ∧
    (Stays s r ∨
      s.token.start < r.prevEnd ∧ r.pending = (State.landing c r.prevEnd frames).pending)
  reach : s.lexer.reach ≤ r.lexer.reach
  prevEnd : s.prevEnd ≤ r.prevEnd
  reuse : r.reuse.entries ⊆ s.reuse.entries

namespace Passed

variable {c : Context} {frames : List Frame} {s r q : State}

theorem of_stays (stands : Stands c frames r) (stays : Stays s r) : Passed c s r := by
  refine ⟨⟨frames, stands, Or.inl stays⟩, ?_, ?_, ?_⟩
  all_goals obtain ⟨reach, trace, further, rfl⟩ := stays
  · exact further
  · exact Nat.le_refl _
  · exact List.Subset.refl _

theorem trans (first : Passed c s r) (second : Passed c r q) : Passed c s q := by
  obtain ⟨frames, standsR, wayR⟩ := first.stands
  obtain ⟨frames', standsQ, wayQ⟩ := second.stands
  refine ⟨?_, Nat.le_trans first.reach second.reach, Nat.le_trans first.prevEnd second.prevEnd,
    List.Subset.trans second.reuse first.reuse⟩
  rcases wayQ with stays | ⟨further, landed⟩
  · refine ⟨frames, standsR.stays stays standsQ.reach_le, ?_⟩
    rcases wayR with before | ⟨moved, landed⟩
    · exact Or.inl (before.trans stays)
    · obtain ⟨reach, trace, _, rfl⟩ := stays
      exact Or.inr ⟨moved, landed⟩
  · refine ⟨frames', standsQ, Or.inr ⟨?_, landed⟩⟩
    rcases wayR with ⟨reach, trace, _, rfl⟩ | ⟨moved, _⟩
    · exact further
    · exact Nat.lt_of_lt_of_le moved second.prevEnd

theorem start_le (passed : Passed c s r) : s.token.start ≤ r.token.start := by
  obtain ⟨frames, stands, way⟩ := passed.stands
  rcases way with ⟨reach, trace, _, rfl⟩ | ⟨moved, _⟩
  · exact Nat.le_refl _
  · exact Nat.le_of_lt (Nat.lt_of_lt_of_le moved stands.prevEnd_le_start)

end Passed

namespace Built

variable {c : Context} {frames : List Frame} {s r : State} {items : List Item}

theorem passed (built : Built c s items r) (stands : Stands c frames s) : Passed c s r := by
  induction built generalizing frames with
  | idle stays limit => exact .of_stays (stands.stays stays limit) stays
  | append first second ihFirst ihSecond =>
      have before := ihFirst stands
      obtain ⟨_, between, _⟩ := before.stands
      exact before.trans (ihSecond between)
  | @token s more field kind proper named =>
      obtain ⟨standing, prevEnd, reuse, landed, further⟩ := stands.moved
      have progress := stands.reached.start_lt more
      have behind := stands.prevEnd_le_start
      refine ⟨⟨_, standing, Or.inr ⟨?_, ?_⟩⟩, further, ?_, ?_⟩
      · rw [prevEnd]
        exact progress.1
      · rw [prevEnd]
        exact landed
      · rw [prevEnd]
        omega
      · rw [reuse]
        exact List.Subset.refl _
  | missing s field label => exact .of_stays stands (.refl s)
  | wrap inner some proper field ih => exact ih stands
  | relabel inner field ih => exact ih stands
  | statement complete inner ih => exact ih stands
  | @flush s r items led moved inner ih =>
      have after := ih stands.flush
      obtain ⟨frames', standing, way⟩ := after.stands
      refine ⟨⟨frames', standing, Or.inr ⟨moved, ?_⟩⟩, after.reach, after.prevEnd, after.reuse⟩
      rcases way with ⟨reach, trace, _, rfl⟩ | ⟨_, landed⟩
      · exact absurd stands.prevEnd_le_start (Nat.not_le.mpr moved)
      · exact landed
  | @reuse s sub rest calm base pending taken fits field =>
      obtain ⟨standing, prevEnd, reuse, landed, further, _⟩ := stands.behind pending rest fits
      have positive := fits.positive
      have behind := stands.prevEnd_le_start
      refine ⟨⟨_, standing, Or.inr ⟨?_, landed⟩⟩, further, ?_, ?_⟩
      · omega
      · omega
      · rw [reuse]
        exact (ReuseIndex.mem_of_take? taken).2

theorem reuse_eq (built : Built c s items r) (stands : Stands c frames s)
    (trial : c.speculating = true) : r.reuse = s.reuse := by
  induction built generalizing frames with
  | idle stays limit =>
      obtain ⟨reach, trace, _, rfl⟩ := stays
      rfl
  | append first second ihFirst ihSecond =>
      obtain ⟨_, between, _⟩ := (first.passed stands).stands
      rw [ihSecond between, ihFirst stands]
  | token more field proper named => exact stands.moved.2.2.1
  | missing s field label => rfl
  | wrap inner some proper field ih => exact ih stands
  | relabel inner field ih => exact ih stands
  | statement complete inner ih => exact ih stands
  | flush led moved inner ih => exact ih stands.flush
  | reuse calm base pending taken fits field =>
      rw [calm] at trial
      contradiction

theorem spread (built : Built c s items r) (stands : Stands c frames s) :
    Spread s.prevEnd r.prevEnd items := by
  induction built generalizing frames with
  | idle stays limit =>
      obtain ⟨reach, trace, _, rfl⟩ := stays
      exact Int.le_refl _
  | append first second ihFirst ihSecond =>
      obtain ⟨_, between, _⟩ := (first.passed stands).stands
      exact (ihFirst stands).append (ihSecond between)
  | @token s more field kind proper named =>
      have ends := stands.reached.start_le_stop
      rw [stands.moved.2.1, State.consume_fst]
      apply stands.spread.append
      refine ⟨Int.le_refl _, ⟨proper, Int.natCast_nonneg _⟩, ?_⟩
      show (s.token.start : Int) + ((s.token.stop - s.token.start : Nat) : Int) ≤ s.token.stop
      omega
  | missing s field label =>
      exact ⟨Int.le_refl _, trivial, Int.le_of_eq (Int.add_zero _)⟩
  | wrap inner some proper field ih => exact (ih stands).finish some proper _ field
  | relabel inner field ih => exact (ih stands).withField field
  | statement complete inner ih =>
      obtain ⟨above, sound, below⟩ := ih stands
      refine ⟨above, sound.asStatement _, ?_⟩
      simp only [Item.stop, Subtree.length_asStatement]
      exact below
  | @flush s r items led moved inner ih =>
      obtain ⟨first, rest, rfl, here⟩ := led
      obtain ⟨_, inside⟩ := ih stands.flush
      exact stands.spread.append ⟨Int.le_of_eq here.symm, inside⟩
  | @reuse s sub rest calm base pending taken fits field =>
      have behind := stands.prevEnd_le_start
      refine ⟨Int.ofNat_le.mpr behind, fits.sound, ?_⟩
      rw [(stands.behind pending rest fits).2.1]
      exact Int.le_refl _

theorem of_speculating (built : Built { c with speculating := true } s items r) :
    Built c s items r := by
  induction built with
  | idle stays limit => exact .idle stays limit
  | append first second ihFirst ihSecond => exact ihFirst.append ihSecond
  | @token s more field kind proper named =>
      rw [State.moved_speculating]
      exact .token more field proper named
  | missing s field label => exact .missing s field label
  | wrap inner some proper field ih => exact ih.wrap some proper field
  | relabel inner field ih => exact ih.relabel field
  | statement complete => nomatch complete.calm
  | flush led moved inner ih => exact ih.flush led moved
  | reuse calm => contradiction

end Built

end MqTree.Parser
