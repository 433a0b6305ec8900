import Mathlib.Data.List.Find
import MqTree.Proofs.Parser.Loops

namespace MqTree.Parser

open Text

/-! What is parsed from a token that starts it does not depend on what came
before the token. -/

namespace State

variable {c : Context} {s : State}

def settled (s : State) : State :=
  { s with
    token := { s.token with newlineBefore := false }
    prevEnd := s.token.start }

@[simp] theorem settled_prevEnd : s.settled.prevEnd = s.token.start := rfl

@[simp] theorem settled_start : s.settled.token.start = s.token.start := rfl

@[simp] theorem settled_pending : s.settled.pending = s.pending := rfl

/-- Where no blank and no comment stands, landing finds the token right there. -/
theorem landing_of_solid {start : Nat} (inside : start ≤ c.src.size)
    (solid : (c.src[start]?).any isBlank = false)
    (plain : (Lexeme.read c.src [] start).kind ≠ .comment) :
    (landing c start []).token.start = start ∧ (landing c start []).token.newlineBefore = false ∧
      (landing c start []).pending = [] ∧
      (landing c start []).lexer.reach = (Lexeme.read c.src [] start).reach := by
  obtain ⟨base, advances, cursor, reach, none⟩ := landing_advances [] inside
  have offset : base.lexer.offset = start := by
    rw [Lexer.offset, cursor, Place.index_moveTo]
  have frames : base.lexer.frames = [] := by rw [cursor]
  have opening : base.lexer.opening c.src = start := by
    simp only [Lexer.opening, frames, offset]
    exact skipWhile_eq_of (Nat.le_refl _) (fun k above below => by omega) solid
  have lexeme : base.lexer.lexeme c.src = Lexeme.read c.src [] start := by
    rw [Lexer.lexeme, opening, frames]
  have kind : (base.lexer.next c.src).1.kind ≠ .comment := by
    rw [Lexer.next_kind, lexeme]
    exact plain
  rw [advances.unique (.token base kind)]
  refine ⟨?_, ?_, none, ?_⟩
  · rw [Lexer.next_start, opening]
  · rw [Lexer.next_newlineBefore, opening, offset, Nat.sub_self]
    rfl
  · rw [Lexer.next_reach, lexeme, reach, Nat.zero_max]

theorem settled_moved {frames : List Frame} (stands : Stands c frames s) :
    s.settled.moved c = s.moved c := by
  have reached := stands.reached
  have inside : s.lexer.offset ≤ c.src.size := by
    rw [reached.offset]
    exact reached.start_le_stop.2
  have here := @advance_eq_landing c { s with pending := [], prevEnd := s.token.stop } inside
    reached.counted rfl
  have there := @advance_eq_landing c { s.settled with pending := [], prevEnd := s.token.stop }
    inside reached.counted rfl
  exact there.trans here.symm

theorem canStart_settled {e : Expr} (leads : e.leads c.table.nullables = true)
    (plain : e.plain = true) : s.settled.canStart c e = s.canStart c e := by
  have among : s.settled.among (c.table.first e) = s.among (c.table.first e) := rfl
  rw [Bool.eq_iff_iff]
  constructor
  · intro starts
    apply canStart_of_among e leads plain
    rw [← among]
    exact among_of_canStart e starts
  · intro starts
    apply canStart_of_among e leads plain
    rw [among]
    exact among_of_canStart e starts

end State

theorem Stands.pending_eq_nil {c : Context} {s : State} (stands : Stands c [] s)
    (ended : s.prevEnd = c.src.size) : s.pending = [] := by
  have past : c.src[c.src.size]? = none := Array.getElem?_eq_none (Nat.le_refl _)
  obtain ⟨_, _, none, _⟩ := State.landing_of_solid (c := c) (Nat.le_refl c.src.size)
    (by rw [past]; rfl) (by rw [Lexeme.read_size]; exact nofun)
  rcases stands.pending with own | handed
  · rw [own, ended, none]
  · exact handed

theorem Stands.settled {c : Context} {s : State} (stands : Stands c [] s) (pending : s.pending = []) :
    Stands c [] s.settled := by
  have reached := stands.reached
  have plain : (Lexeme.read c.src [] s.token.start).kind ≠ .comment := by
    rw [← reached.kind]
    exact reached.notComment
  obtain ⟨start, newline, none, reach⟩ :=
    State.landing_of_solid reached.start_le (reached.solid rfl) plain
  have landed := State.landing_reached (c := c) [] reached.start_le
  have token : s.settled.token = (State.landing c s.token.start []).token := by
    have placed := landed.placed
    have kind := landed.kind
    have lit := landed.lit
    have stop := landed.stop
    rw [start] at placed kind lit stop
    rw [reached.placed, Point.mk.injEq] at placed
    rw [← reached.kind] at kind
    rw [← reached.lit] at lit
    rw [← reached.stop] at stop
    generalize (State.landing c s.token.start []).token = other at *
    cases other
    simp only [State.settled, Token.mk.injEq]
    exact ⟨kind.symm, lit.symm, start.symm, stop.symm, placed.1, placed.2, newline.symm⟩
  have symbol : (State.landing c s.token.start []).token.symbol = s.token.symbol := by
    rw [← token]
    rfl
  have lit : (State.landing c s.token.start []).token.lit = s.token.lit := by
    rw [← token]
    rfl
  have stop : (State.landing c s.token.start []).token.stop = s.token.stop := by
    rw [← token]
    rfl
  refine ⟨reached.start_le, ?_, token, ?_, ?_, Or.inr pending, ?_, stands.reach_le⟩
  · show s.lexer.toCursor = (State.landing c s.token.start []).lexer.toCursor
    have place : s.lexer.place = (State.landing c s.token.start []).lexer.place := by
      rw [reached.counted.eq_moveTo, landed.counted.eq_moveTo]
      change Place.moveTo _ _ s.lexer.offset =
        Place.moveTo _ _ (State.landing c s.token.start []).lexer.offset
      rw [reached.offset, landed.offset, stop]
    have frames : s.lexer.frames = (State.landing c s.token.start []).lexer.frames := by
      rw [reached.opened, landed.opened, lit]
    calc s.lexer.toCursor
        = ⟨s.lexer.place, s.lexer.frames⟩ := rfl
      _ = ⟨(State.landing c s.token.start []).lexer.place,
            (State.landing c s.token.start []).lexer.frames⟩ := by rw [place, frames]
  · show s.terminal = (State.landing c s.token.start []).terminal
    rw [reached.terminal, landed.terminal, symbol]
  · show s.atBase = (State.landing c s.token.start []).atBase
    rw [reached.atBase, landed.atBase]
  · show (State.landing c s.token.start []).lexer.reach ≤ s.lexer.reach
    rw [reach]
    exact reached.looked

theorem Context.Statement.admitted {c : Context} {o : Outline} {item : Expr}
    (statement : c.Statement item) (law : c.table.Lawful o) :
    item = .ref o.statement ∧ c.table.admits o false item = true := by
  obtain ⟨rule, present, body⟩ := statement
  obtain ⟨rule', present', _, body', admitted⟩ := law.start
  rw [present] at present'
  obtain rfl := Option.some.inj present'
  rw [body'] at body admitted
  obtain ⟨_, same, _⟩ := Expr.stmts.inj body
  rw [Table.admits, Bool.and_eq_true] at admitted
  exact ⟨same.symm, same ▸ admitted.2⟩

section

variable {c : Context} {o : Outline} {s : State} {frames : List Frame} {e : Expr}

theorem of_mem_plainAll {alts : List Expr} (plain : Expr.plainAll alts = true) {alt : Expr}
    (member : alt ∈ alts) : alt.plain = true := by
  induction alts with
  | nil => contradiction
  | cons e es ih =>
      rw [Expr.plainAll, Bool.and_eq_true] at plain
      rcases List.mem_cons.mp member with rfl | later
      · exact plain.1
      · exact ih plain.2 later

/-- What the class of the token decides to enter is parsed as if the parser
began with the token. -/
def Settles (c : Context) (o : Outline) (s : State) (runner : Runner) : Prop :=
  ∀ ⦃e : Expr⦄ ⦃field : String⦄, c.table.admits o c.speculating e = true →
    e.leads c.table.nullables = true → e.plain = true → s.canStart c e = true →
      runner c (.expr e field) s.settled = runner c (.expr e field) s

section

variable {runner : Runner} {field : String}

theorem tok_settled {sym : String} {words : List String} (stands : Stands c frames s)
    (admitted : c.table.admits o c.speculating (.tok sym words) = true)
    (starts : s.canStart c (.tok sym words) = true) :
    expression runner c field (.tok sym words) s.settled =
      expression runner c field (.tok sym words) s := by
  simp only [Table.admits, Bool.and_eq_true] at admitted
  have taken := tok_taken stands.reached.terminal admitted.2 starts
  have taken' : (!s.settled.token.isEnd && s.settled.token.symbol == sym &&
      s.settled.accepts c words) = true := taken
  simp only [expression, taken, taken', if_true, State.consume_snd, State.settled_moved stands]
  rfl

theorem leaf_settled {kind sym : String} (stands : Stands c frames s)
    (admitted : c.table.admits o c.speculating (.leaf kind sym) = true)
    (starts : s.canStart c (.leaf kind sym) = true) :
    expression runner c field (.leaf kind sym) s.settled =
      expression runner c field (.leaf kind sym) s := by
  simp only [Table.admits, Bool.and_eq_true] at admitted
  have taken := leaf_taken stands.reached.terminal admitted.2 starts
  have taken' : (!s.settled.token.isEnd && s.settled.token.symbol == sym) = true := taken
  simp only [expression, taken, taken', if_true, State.consume_snd, State.settled_moved stands]
  rfl

variable (settles : Settles c o s runner)

include settles

theorem reference_settled {name : String} (law : c.table.Lawful o)
    (admitted : c.table.admits o c.speculating (.ref name) = true)
    (starts : s.canStart c (.ref name) = true) :
    expression runner c field (.ref name) s.settled = expression runner c field (.ref name) s := by
  have same : s.settled.canStart c (.ref name) = s.canStart c (.ref name) := rfl
  simp only [expression, reference, same, starts, Bool.not_true, Bool.and_false,
    Bool.false_eq_true, if_false]
  cases found : c.table.rule? name with
  | none => rfl
  | some rule =>
      obtain ⟨whole, inner⟩ := admits_body law admitted found
      obtain ⟨lead, enters⟩ := body_starts whole found starts
      simp only [Table.admitsRule, Bool.and_eq_true] at whole
      obtain ⟨⟨⟨⟨⟨⟨⟨_, _⟩, plain⟩, _⟩, _⟩, _⟩, _⟩, _⟩ := whole
      simp only [settles inner lead plain enters]

theorem sequence_settled {es : List Expr} (admitted : c.table.admitsAll o c.speculating es = true)
    (leads : Expr.leadsHead c.table.nullables es = true) (plain : Expr.plainHead es = true)
    (starts : s.sequenceCanStart c es = true) :
    sequence runner c field es s.settled = sequence runner c field es s := by
  cases es with
  | nil => contradiction
  | cons e es =>
      obtain ⟨lead, enters⟩ := head_starts leads starts
      rw [Table.admitsAll, Bool.and_eq_true] at admitted
      rw [sequence, sequence, settles admitted.1 lead plain enters]

theorem choice_settled {alts : List Expr} (admitted : c.table.admitsAll o c.speculating alts = true)
    (leads : Expr.leadsAll c.table.nullables alts = true) (plain : Expr.plainAll alts = true)
    (starts : s.anyCanStart c alts = true) :
    expression runner c field (.choice alts) s.settled =
      expression runner c field (.choice alts) s := by
  have same : alts.find? (s.settled.canStart c) = alts.find? (s.canStart c) := by
    apply List.find?_congr
    intro alt member
    exact State.canStart_settled (of_mem_alts leads admitted member).1 (of_mem_plainAll plain member)
  simp only [expression, same]
  cases found : alts.find? (s.canStart c) with
  | none =>
      obtain ⟨alt, member, other⟩ := State.anyCanStart_eq_true.mp starts
      exact absurd other (List.find?_eq_none.mp found alt member)
  | some alt =>
      have member := List.mem_of_find?_eq_some found
      obtain ⟨lead, inner, _⟩ := of_mem_alts leads admitted member
      exact settles inner lead (of_mem_plainAll plain member) (List.find?_some found)

theorem unary_settled {kind : String} {ops : List String} {operand : Expr}
    (stands : Stands c frames s)
    (admitted : c.table.admits o c.speculating (.unary kind ops operand) = true)
    (leads : (Expr.unary kind ops operand).leads c.table.nullables = true)
    (starts : s.canStart c (.unary kind ops operand) = true) :
    expression runner c field (.unary kind ops operand) s.settled =
      expression runner c field (.unary kind ops operand) s := by
  rw [Expr.leads, Bool.and_eq_true] at leads
  simp only [Table.admits, Bool.and_eq_true] at admitted
  have kinds : s.settled.token.kind = s.token.kind := rfl
  have lits : s.settled.token.lit = s.token.lit := rfl
  simp only [expression, kinds, lits]
  by_cases operator : (s.token.kind == .punctuation && ops.contains s.token.lit) = true
  · simp only [operator, if_true, State.consume_snd, State.settled_moved stands]
    rfl
  · simp only [operator, Bool.false_eq_true, if_false]
    exact settles admitted.2 leads.1 leads.2 (operand_starts stands.reached.terminal
      stands.reached.spells admitted.1.2 operator leads.1 leads.2 starts)

end

theorem run_settled (law : c.table.Lawful o) (stands : Stands c frames s) (n : Nat) :
    Settles c o s (run n) := by
  induction n using Nat.strongRecOn with
  | ind n deeper =>
      intro e field admitted leads plain starts
      cases n with
      | zero => rfl
      | succ n =>
          have settles := deeper n (Nat.lt_succ_self n)
          have parts := admitted
          rw [run, run, step, step]
          cases e with
          | tok sym words => exact tok_settled stands admitted starts
          | leaf kind sym => exact leaf_settled stands admitted starts
          | ref name => exact reference_settled settles law admitted starts
          | seq items =>
              simp only [Table.admits, Bool.and_eq_true] at parts
              exact sequence_settled settles parts.2 leads plain starts
          | choice alts =>
              simp only [Table.admits, Bool.and_eq_true] at parts
              exact choice_settled settles parts.2 leads plain starts
          | field name body =>
              simp only [Table.admits, Bool.and_eq_true] at parts
              exact settles parts.2 leads plain starts
          | suffixed head many suffixes =>
              simp only [Table.admits, Bool.and_eq_true] at parts
              obtain ⟨lead, enters⟩ := suffixed_enters ⟨leads, starts⟩
              rw [Expr.leads, Bool.and_eq_true] at leads
              rw [expression, expression, settles parts.1.2 lead leads.2 enters]
          | binary kind operand ops =>
              simp only [Table.admits, Bool.and_eq_true] at parts
              obtain ⟨lead, enters⟩ := binary_enters ⟨leads, starts⟩
              rw [Expr.leads, Bool.and_eq_true] at leads
              cases n with
              | zero => rfl
              | succ n =>
                  have same := @deeper n (by omega) operand "" parts.2 lead leads.2 enters
                  rw [expression, expression, run, run, step, step, same]
          | unary kind ops operand => exact unary_settled settles stands admitted leads starts
          | immediate body | sameLine body => contradiction
          | ordered | opt | rep | sepBy | stmts => contradiction

/-! ### Titles -/

def Titled (field : String) (items : List Item) : Prop :=
  ∃ first rest, items = first :: rest ∧ first.field = field ∧ isProper first.node.kind = true

namespace Titled

variable {field kind : String} {items : List Item}

theorem append (titled : Titled field items) (more : List Item) : Titled field (items ++ more) := by
  obtain ⟨first, rest, rfl, given, proper⟩ := titled
  exact ⟨first, rest ++ more, rfl, given, proper⟩

theorem finish (proper : isProper kind = true) (s : State) (field : String)
    (items : List Item) : Titled field [s.finish kind field items] := by
  refine ⟨_, [], rfl, ?_, ?_⟩
  · cases items <;> rfl
  · cases items <;> exact proper

theorem withField (titled : Titled "" items) (field : String) :
    Titled field (Parser.withField field items) := by
  obtain ⟨first, rest, rfl, given, proper⟩ := titled
  unfold Parser.withField
  split
  next none => exact ⟨first, rest, rfl, by rw [given, none], proper⟩
  next =>
    obtain ⟨_, notComment, notError, _⟩ := isProper_iff.mp proper
    have takes : first.takesField = true := by
      simp [Item.takesField, given, notComment, notError]
    refine ⟨first.withField field, _, rfl, ?_, ?_⟩
    · rw [Item.withField, if_pos takes]
    · rw [Item.node_withField]
      exact proper

theorem close (titled : kind = "" → Titled "" items) (proper : kind ≠ "" → isProper kind = true)
    (s : State) : Titled "" (closeSuffixes s kind items) := by
  unfold closeSuffixes
  split
  next none => exact titled none
  next some => exact finish (proper some) s "" items

end Titled

variable {items : List Item} {r : State} {field : String}

theorem suffixes_titled {many : Bool} {all : List (Suffix Expr)} {kind : String}
    {built : List Item} {trial : Bool} (tails : c.table.admitsTails o trial all = true)
    (titled : kind = "" → Titled "" built) (proper : kind ≠ "" → isProper kind = true) {n : Nat}
    (ran : run n c (.suffixes many all kind built field) s = .done items r) :
    Titled field items := by
  induction n generalizing s kind built with
  | zero => contradiction
  | succ n ih =>
      rw [run, step, suffixes] at ran
      split at ran
      next =>
        obtain ⟨rfl, _⟩ := Outcome.done.inj ran
        exact (Titled.close titled proper s).withField field
      next x found =>
        obtain ⟨suffix, _, _, _, some⟩ := of_mem_tails tails (List.mem_of_find?_eq_some found)
        obtain ⟨more, q, _, later⟩ := Outcome.bind_eq_done ran
        split at later
        · exact ih (fun none => absurd none some) (fun _ => suffix) later
        · obtain ⟨rfl, _⟩ := Outcome.done.inj later
          exact (Titled.close (fun none => absurd none some) (fun _ => suffix) q).withField field

theorem operators_titled {kind : String} {operand : Expr} {ops : List (String × UInt8)}
    {least : UInt8} {left : List Item} (proper : isProper kind = true) (titled : Titled "" left)
    {n : Nat} (ran : run n c (.operators kind operand ops least left field) s = .done items r) :
    Titled field items := by
  induction n generalizing s left with
  | zero => contradiction
  | succ n ih =>
      rw [run, step, operators] at ran
      split at ran
      next =>
        obtain ⟨rfl, _⟩ := Outcome.done.inj ran
        exact titled.withField field
      next =>
        split at ran
        · obtain ⟨rfl, _⟩ := Outcome.done.inj ran
          exact titled.withField field
        · obtain ⟨right, q, _, later⟩ := Outcome.bind_eq_done ran
          exact ih (Titled.finish proper q "" _) later

theorem of_mem_titledAll {alts : List Expr} (titled : Expr.titledAll alts = true) {alt : Expr}
    (member : alt ∈ alts) : alt.titled = true := by
  induction alts with
  | nil => contradiction
  | cons e es ih =>
      rw [Expr.titledAll, Bool.and_eq_true] at titled
      rcases List.mem_cons.mp member with rfl | later
      · exact titled.1
      · exact ih titled.2 later

def Titles (c : Context) (o : Outline) (s : State) (runner : Runner) : Prop :=
  ∀ ⦃e : Expr⦄ ⦃field : String⦄ ⦃items : List Item⦄ ⦃r : State⦄,
    c.table.admits o c.speculating e = true → e.leads c.table.nullables = true →
      e.titled = true → s.canStart c e = true → runner c (.expr e field) s = .done items r →
        Titled field items

section

variable {runner : Runner} (titles : Titles c o s runner)

include titles

theorem reference_titled {name : String} (law : c.table.Lawful o)
    (admitted : c.table.admits o c.speculating (.ref name) = true)
    (starts : s.canStart c (.ref name) = true)
    (ran : expression runner c field (.ref name) s = .done items r) : Titled field items := by
  simp only [expression, reference, starts, Bool.not_true, Bool.and_false, Bool.false_eq_true,
    if_false] at ran
  cases found : c.table.rule? name with
  | none =>
      rw [found] at ran
      contradiction
  | some rule =>
      obtain ⟨whole, inner⟩ := admits_body law admitted found
      obtain ⟨lead, enters⟩ := body_starts whole found starts
      simp only [Table.admitsRule, Bool.and_eq_true, Bool.or_eq_true, Bool.not_eq_true'] at whole
      obtain ⟨⟨⟨⟨⟨⟨⟨proper, _⟩, _⟩, body⟩, _⟩, _⟩, _⟩, _⟩ := whole
      rw [found] at ran
      cases hidden : rule.hidden with
      | true =>
          simp only [hidden, if_true] at ran
          rcases body with shown | titled
          · rw [hidden] at shown
            contradiction
          · exact titles inner lead titled enters ran
      | false =>
          simp only [hidden, Bool.false_eq_true, if_false] at ran
          obtain ⟨children, q, _, later⟩ := Outcome.bind_eq_done ran
          obtain ⟨rfl, _⟩ := Outcome.done.inj later
          exact Titled.finish proper q field children

theorem sequence_titled {es : List Expr} (admitted : c.table.admitsAll o c.speculating es = true)
    (leads : Expr.leadsHead c.table.nullables es = true) (titled : Expr.titledHead es = true)
    (starts : s.sequenceCanStart c es = true)
    (ran : sequence runner c field es s = .done items r) : Titled field items := by
  cases es with
  | nil => contradiction
  | cons e es =>
      obtain ⟨lead, enters⟩ := head_starts leads starts
      rw [Table.admitsAll, Bool.and_eq_true] at admitted
      obtain ⟨front, q, first, later⟩ := Outcome.bind_eq_done ran
      obtain ⟨rest, _, rfl⟩ := Outcome.after_eq_done later
      exact (titles admitted.1 lead titled enters first).append rest

theorem choice_titled {alts : List Expr} (admitted : c.table.admitsAll o c.speculating alts = true)
    (leads : Expr.leadsAll c.table.nullables alts = true) (titled : Expr.titledAll alts = true)
    (starts : s.anyCanStart c alts = true)
    (ran : expression runner c field (.choice alts) s = .done items r) : Titled field items := by
  simp only [expression] at ran
  cases found : alts.find? (s.canStart c) with
  | none =>
      obtain ⟨alt, member, other⟩ := State.anyCanStart_eq_true.mp starts
      exact absurd other (List.find?_eq_none.mp found alt member)
  | some alt =>
      rw [found] at ran
      have member := List.mem_of_find?_eq_some found
      obtain ⟨lead, inner, _⟩ := of_mem_alts leads admitted member
      exact titles inner lead (of_mem_titledAll titled member) (List.find?_some found) ran

theorem unary_titled {kind : String} {ops : List String} {operand : Expr}
    (stands : Stands c frames s)
    (admitted : c.table.admits o c.speculating (.unary kind ops operand) = true)
    (leads : (Expr.unary kind ops operand).leads c.table.nullables = true)
    (titled : operand.titled = true) (starts : s.canStart c (.unary kind ops operand) = true)
    (ran : expression runner c field (.unary kind ops operand) s = .done items r) :
    Titled field items := by
  rw [Expr.leads, Bool.and_eq_true] at leads
  simp only [Table.admits, Bool.and_eq_true] at admitted
  simp only [expression] at ran
  split at ran
  next =>
    obtain ⟨more, q, _, later⟩ := Outcome.bind_eq_done ran
    obtain ⟨rfl, _⟩ := Outcome.done.inj later
    exact Titled.finish admitted.1.1.2 q field _
  next other =>
    have enters := operand_starts stands.reached.terminal stands.reached.spells admitted.1.2 other
      leads.1 leads.2 starts
    exact titles admitted.2 leads.1 titled enters ran

end

/-- What starts with the token takes the field that the whole is given. -/
theorem run_titled (law : c.table.Lawful o) (stands : Stands c frames s) (pending : s.pending = [])
    (n : Nat) : Titles c o s (run n) := by
  induction n using Nat.strongRecOn with
  | ind n deeper =>
      intro e field items r admitted leads titled starts ran
      cases n with
      | zero => contradiction
      | succ n =>
          have titles := deeper n (Nat.lt_succ_self n)
          have parts := admitted
          rw [run, step] at ran
          cases e with
          | tok sym words =>
              simp only [Table.admits, Bool.and_eq_true] at parts
              have taken := tok_taken stands.reached.terminal parts.2 starts
              simp only [expression, taken, if_true, State.consume_fst, pending] at ran
              obtain ⟨rfl, _⟩ := Outcome.done.inj ran
              exact ⟨_, [], rfl, rfl, parts.2⟩
          | leaf kind sym =>
              simp only [Table.admits, Bool.and_eq_true] at parts
              have taken := leaf_taken stands.reached.terminal parts.2 starts
              simp only [expression, taken, if_true, State.consume_fst, pending] at ran
              obtain ⟨rfl, _⟩ := Outcome.done.inj ran
              exact ⟨_, [], rfl, rfl, parts.1.2⟩
          | ref name => exact reference_titled titles law admitted starts ran
          | seq items =>
              simp only [Table.admits, Bool.and_eq_true] at parts
              exact sequence_titled titles parts.2 leads titled starts ran
          | choice alts =>
              simp only [Table.admits, Bool.and_eq_true] at parts
              exact choice_titled titles parts.2 leads titled starts ran
          | suffixed head many suffixes =>
              simp only [Table.admits, Bool.and_eq_true] at parts
              obtain ⟨lead, enters⟩ := suffixed_enters ⟨leads, starts⟩
              rw [expression] at ran
              obtain ⟨built, q, first, later⟩ := Outcome.bind_eq_done ran
              have front := titles parts.1.2 lead titled enters first
              exact suffixes_titled parts.2 (fun _ => front) (fun some => absurd rfl some) later
          | binary kind operand ops =>
              simp only [Table.admits, Bool.and_eq_true] at parts
              obtain ⟨lead, enters⟩ := binary_enters ⟨leads, starts⟩
              cases n with
              | zero => contradiction
              | succ n =>
                  rw [expression, run, step] at ran
                  obtain ⟨left, q, first, later⟩ := Outcome.bind_eq_done ran
                  have front := deeper n (by omega) parts.2 lead titled enters first
                  exact operators_titled parts.1.2 front later
          | unary kind ops operand => exact unary_titled titles stands admitted leads titled starts ran
          | ordered | opt | rep | sepBy | field | immediate | sameLine | stmts => contradiction

end

end MqTree.Parser
