import MqTree.Proofs.Grammar.Law
import MqTree.Proofs.Lexer.Next

namespace MqTree

namespace Table

variable (t : Table)

def firstOfSeq (items : List Expr) : TermSet :=
  Id.run (Expr.firstOfSeq t.terminal t.nullables t.ruleFirst items)

def firstOfAlts (alts : List Expr) : TermSet :=
  Id.run (Expr.firstOfAlts t.terminal t.nullables t.ruleFirst alts)

theorem first_ref (name : String) : t.first (.ref name) = t.ruleFirst name := rfl

theorem first_seq (items : List Expr) : t.first (.seq items) = t.firstOfSeq items := rfl

theorem first_unary (kind : String) (ops : List String) (operand : Expr) :
    t.first (.unary kind ops operand) =
      ops.foldr (fun op set => t.terminal op ||| set) (t.first operand) := rfl

theorem firstOfSeq_cons (e : Expr) (es : List Expr) :
    t.firstOfSeq (e :: es) =
      if t.nullable e then t.first e ||| t.firstOfSeq es else t.first e := by
  unfold firstOfSeq nullable first
  rw [Expr.firstOfSeq]
  cases e.nullable t.nullables <;> rfl

theorem firstOfAlts_cons (e : Expr) (es : List Expr) :
    t.firstOfAlts (e :: es) = t.first e ||| t.firstOfAlts es := rfl

end Table

namespace Parser.State

variable {c : Context} {s : State}

theorem among_or (a b : TermSet) : s.among (a ||| b) = (s.among a || s.among b) := by
  unfold among
  cases s.terminal with
  | none => rfl
  | some id => exact BitVec.getLsbD_or

theorem among_foldr (ops : List String) (rest : TermSet) :
    s.among (ops.foldr (fun op set => c.table.terminal op ||| set) rest) =
      (ops.any (fun op => s.among (c.table.terminal op)) || s.among rest) := by
  induction ops with
  | nil => rfl
  | cons op ops ih => rw [List.foldr_cons, among_or, ih, List.any_cons, Bool.or_assoc]

mutual

theorem among_of_canStart (e : Expr) (starts : s.canStart c e = true) :
    s.among (c.table.first e) = true := by
  match e with
  | .tok sym words =>
      rw [canStart, Bool.and_eq_true] at starts
      exact starts.1
  | .sameLine body =>
      rw [canStart, Bool.and_eq_true] at starts
      exact among_of_canStart body starts.2
  | .immediate body =>
      rw [canStart, Bool.and_eq_true] at starts
      exact among_of_canStart body starts.2
  | .field _ body =>
      rw [canStart] at starts
      exact among_of_canStart body starts
  | .seq items =>
      rw [canStart] at starts
      exact among_of_sequenceCanStart items starts
  | .choice alts =>
      rw [canStart] at starts
      exact among_of_anyCanStart alts starts
  | .ordered alts =>
      rw [canStart] at starts
      exact among_of_anyCanStart alts starts
  | .leaf .. | .ref _ | .opt _ | .rep .. | .sepBy .. | .stmts .. | .suffixed .. | .binary ..
  | .unary .. => exact starts

theorem among_of_sequenceCanStart (items : List Expr) (starts : s.sequenceCanStart c items = true) :
    s.among (c.table.firstOfSeq items) = true := by
  match items with
  | [] => simp [sequenceCanStart] at starts
  | e :: es =>
      rw [sequenceCanStart, Bool.or_eq_true, Bool.and_eq_true] at starts
      rw [Table.firstOfSeq_cons]
      rcases starts with here | ⟨empty, later⟩
      · have first := among_of_canStart e here
        split
        · rw [among_or, first, Bool.true_or]
        · exact first
      · rw [if_pos empty, among_or, among_of_sequenceCanStart es later, Bool.or_true]

theorem among_of_anyCanStart (alts : List Expr) (starts : s.anyCanStart c alts = true) :
    s.among (c.table.firstOfAlts alts) = true := by
  match alts with
  | [] => simp [anyCanStart] at starts
  | e :: es =>
      rw [anyCanStart, Bool.or_eq_true] at starts
      rw [Table.firstOfAlts_cons, among_or, Bool.or_eq_true]
      rcases starts with here | later
      · exact Or.inl (among_of_canStart e here)
      · exact Or.inr (among_of_anyCanStart es later)

end

mutual

theorem canStart_of_among (e : Expr) (leads : e.leads c.table.nullables = true)
    (plain : e.plain = true) (among : s.among (c.table.first e) = true) :
    s.canStart c e = true := by
  match e with
  | .tok sym words =>
      rw [canStart, Bool.and_eq_true]
      rw [Expr.plain] at plain
      exact ⟨among, by rw [accepts, plain, Bool.true_or]⟩
  | .field _ body =>
      rw [Expr.leads] at leads
      rw [Expr.plain] at plain
      rw [canStart]
      exact canStart_of_among body leads plain among
  | .seq [] => simp [Expr.leads, Expr.leadsHead] at leads
  | .seq (e :: es) =>
      rw [Expr.leads, Expr.leadsHead, Bool.and_eq_true, Bool.not_eq_true'] at leads
      rw [Expr.plain, Expr.plainHead] at plain
      have required : c.table.nullable e = false := leads.2
      rw [Table.first_seq, Table.firstOfSeq_cons, required] at among
      rw [canStart, sequenceCanStart, canStart_of_among e leads.1 plain among, Bool.true_or]
  | .choice alts =>
      rw [Expr.leads] at leads
      rw [Expr.plain] at plain
      rw [canStart]
      exact anyCanStart_of_among alts leads plain among
  | .leaf .. | .ref _ | .suffixed .. | .binary .. | .unary .. => exact among
  | .immediate _ | .sameLine _ => simp [Expr.plain] at plain
  | .ordered _ | .opt _ | .rep .. | .sepBy .. | .stmts .. => simp [Expr.leads] at leads

theorem anyCanStart_of_among (alts : List Expr) (leads : Expr.leadsAll c.table.nullables alts = true)
    (plain : Expr.plainAll alts = true) (among : s.among (c.table.firstOfAlts alts) = true) :
    s.anyCanStart c alts = true := by
  match alts with
  | [] =>
      unfold State.among at among
      cases id : s.terminal <;> simp [id, Table.firstOfAlts, Expr.firstOfAlts, TermSet.empty] at among
  | e :: es =>
      rw [Expr.leadsAll, Bool.and_eq_true] at leads
      rw [Expr.plainAll, Bool.and_eq_true] at plain
      rw [Table.firstOfAlts_cons, among_or, Bool.or_eq_true] at among
      rw [anyCanStart, Bool.or_eq_true]
      rcases among with here | later
      · exact Or.inl (canStart_of_among e leads.1 plain.1 here)
      · exact Or.inr (anyCanStart_of_among es leads.2 plain.2 later)

end

end Parser.State

structure Parser.LooksLike (c : Context) (s : State) (d : Context) (r : State) : Prop where
  table : d.table = c.table
  terminal : r.terminal = s.terminal
  accepts : ∀ words, r.accepts d words = s.accepts c words
  newline : r.token.newlineBefore = s.token.newlineBefore
  adjacent : (r.token.start == r.prevEnd) = (s.token.start == s.prevEnd)

namespace Parser.LooksLike

variable {c d : Context} {s r : State}

theorem among (like : LooksLike c s d r) (set : TermSet) : r.among set = s.among set := by
  rw [State.among, State.among, like.terminal]

mutual

theorem canStart (like : LooksLike c s d r) (e : Expr) : r.canStart d e = s.canStart c e := by
  match e with
  | .tok sym words => rw [State.canStart, State.canStart, like.among, like.accepts, like.table]
  | .sameLine body => rw [State.canStart, State.canStart, like.canStart body, like.newline]
  | .immediate body => rw [State.canStart, State.canStart, like.canStart body, like.adjacent]
  | .field _ body => rw [State.canStart, State.canStart, like.canStart body]
  | .seq items => rw [State.canStart, State.canStart, like.sequenceCanStart items]
  | .choice alts => rw [State.canStart, State.canStart, like.anyCanStart alts]
  | .ordered alts => rw [State.canStart, State.canStart, like.anyCanStart alts]
  | .leaf .. | .ref _ | .opt _ | .rep .. | .sepBy .. | .stmts .. | .suffixed .. | .binary ..
  | .unary .. => simp only [State.canStart, like.among, like.table]

theorem sequenceCanStart (like : LooksLike c s d r) (items : List Expr) :
    r.sequenceCanStart d items = s.sequenceCanStart c items := by
  match items with
  | [] => rfl
  | e :: es =>
      rw [State.sequenceCanStart, State.sequenceCanStart, like.canStart e,
        like.sequenceCanStart es, like.table]

theorem anyCanStart (like : LooksLike c s d r) (alts : List Expr) :
    r.anyCanStart d alts = s.anyCanStart c alts := by
  match alts with
  | [] => rfl
  | e :: es => rw [State.anyCanStart, State.anyCanStart, like.canStart e, like.anyCanStart es]

end

end Parser.LooksLike

theorem Parser.State.anyCanStart_eq_true {c : Context} {s : State} {alts : List Expr} :
    s.anyCanStart c alts = true ↔ ∃ alt ∈ alts, s.canStart c alt = true := by
  induction alts with
  | nil => simp [anyCanStart]
  | cons e es ih => simp [anyCanStart, ih]

theorem isProper_iff {kind : String} : isProper kind = true ↔
    kind ≠ endSymbol ∧ kind ≠ commentSymbol ∧ kind ≠ errorKind ∧ kind ≠ missingKind := by
  simp [isProper]

namespace Table

variable {t : Table} {o : Outline}

theorem terminal_eq_single {sym : String} {id : Nat} (has : (t.terminal sym).getLsbD id = true) :
    t.termId? sym = some id := by
  unfold terminal at has
  cases found : t.termId? sym with
  | none => simp [found, TermSet.empty] at has
  | some other =>
      rw [found, Option.map_some, Option.getD_some, TermSet.single, BitVec.getLsbD_twoPow,
        Bool.and_eq_true, decide_eq_true_iff, decide_eq_true_iff] at has
      rw [has.2]

theorem termId?_inj {a b : String} {id : Nat} (ha : t.termId? a = some id)
    (hb : t.termId? b = some id) : a = b := by
  unfold termId? at ha hb
  have hereA := (List.findIdx?_eq_some_iff_getElem.mp ha).2.1
  have hereB := (List.findIdx?_eq_some_iff_getElem.mp hb).2.1
  exact (beq_iff_eq.mp hereA).symm.trans (beq_iff_eq.mp hereB)

theorem Lawful.terminal_no_end (law : t.Lawful o) {sym : String} (proper : sym ≠ endSymbol) :
    (t.terminal sym).getLsbD 0 = false := by
  apply Bool.eq_false_iff.mpr
  intro has
  exact proper (termId?_inj (terminal_eq_single has) law.symbols)

theorem Lawful.marks_no_end (law : t.Lawful o) {ops : List String} {rest : TermSet}
    (marks : ops.all isMark = true) (no_end : rest.getLsbD 0 = false) :
    (ops.foldr (fun op set => t.terminal op ||| set) rest).getLsbD 0 = false := by
  induction ops with
  | nil => exact no_end
  | cons op ops ih =>
      rw [List.all_cons, Bool.and_eq_true] at marks
      have differs : op ≠ endSymbol := by
        rintro rfl
        exact absurd marks.1 (by decide)
      rw [List.foldr_cons, BitVec.getLsbD_or, law.terminal_no_end differs, ih marks.2,
        Bool.or_false]

mutual

theorem Lawful.first_no_end (law : t.Lawful o) (trial : Bool) (e : Expr)
    (admitted : t.admits o trial e = true) : (t.first e).getLsbD 0 = false := by
  match e with
  | .tok sym _ =>
      simp only [admits, Bool.and_eq_true] at admitted
      exact law.terminal_no_end (isProper_iff.mp admitted.2).1
  | .leaf _ sym =>
      simp only [admits, Bool.and_eq_true] at admitted
      exact law.terminal_no_end (isProper_iff.mp admitted.2).1
  | .ref name => exact law.firsts name
  | .seq items =>
      simp only [admits, Bool.and_eq_true] at admitted
      exact law.firstOfSeq_no_end trial items admitted.2
  | .choice alts =>
      simp only [admits, Bool.and_eq_true] at admitted
      exact law.firstOfAlts_no_end trial alts admitted.2
  | .ordered alts =>
      simp only [admits, Bool.and_eq_true] at admitted
      exact law.firstOfTrials_no_end alts admitted.2
  | .opt body | .rep body _ | .sepBy body _ _ | .field _ body | .immediate body | .sameLine body
  | .stmts _ body _ | .binary _ body _ =>
      simp only [admits, Bool.and_eq_true] at admitted
      exact law.first_no_end trial body admitted.2
  | .suffixed head _ _ =>
      simp only [admits, Bool.and_eq_true] at admitted
      exact law.first_no_end trial head admitted.1.2
  | .unary _ ops operand =>
      simp only [admits, Bool.and_eq_true] at admitted
      rw [first_unary]
      exact law.marks_no_end admitted.1.2 (law.first_no_end trial operand admitted.2)

theorem Lawful.firstOfSeq_no_end (law : t.Lawful o) (trial : Bool) (items : List Expr)
    (admitted : t.admitsAll o trial items = true) : (t.firstOfSeq items).getLsbD 0 = false := by
  match items with
  | [] => exact BitVec.getLsbD_zero
  | e :: es =>
      rw [admitsAll, Bool.and_eq_true] at admitted
      have here := law.first_no_end trial e admitted.1
      rw [firstOfSeq_cons]
      split
      · rw [BitVec.getLsbD_or, here, law.firstOfSeq_no_end trial es admitted.2, Bool.or_false]
      · exact here

theorem Lawful.firstOfAlts_no_end (law : t.Lawful o) (trial : Bool) (alts : List Expr)
    (admitted : t.admitsAll o trial alts = true) : (t.firstOfAlts alts).getLsbD 0 = false := by
  match alts with
  | [] => exact BitVec.getLsbD_zero
  | e :: es =>
      rw [admitsAll, Bool.and_eq_true] at admitted
      rw [firstOfAlts_cons, BitVec.getLsbD_or, law.first_no_end trial e admitted.1,
        law.firstOfAlts_no_end trial es admitted.2, Bool.or_false]

theorem Lawful.firstOfTrials_no_end (law : t.Lawful o) (alts : List Expr)
    (admitted : t.admitsTrials o alts = true) : (t.firstOfAlts alts).getLsbD 0 = false := by
  match alts with
  | [] => exact BitVec.getLsbD_zero
  | [last] =>
      rw [admitsTrials] at admitted
      rw [firstOfAlts_cons, BitVec.getLsbD_or, law.first_no_end false last admitted, Bool.false_or]
      exact BitVec.getLsbD_zero
  | e :: next :: rest =>
      rw [admitsTrials, Bool.and_eq_true, Bool.and_eq_true] at admitted
      rw [firstOfAlts_cons, BitVec.getLsbD_or, law.first_no_end true e admitted.1.2,
        law.firstOfTrials_no_end (next :: rest) admitted.2, Bool.or_false]

end

end Table

namespace Parser.State

variable {c : Context} {s : State} {o : Outline}

theorem symbol_of_among (classed : s.terminal = c.table.termId? s.token.symbol) {sym : String}
    (among : s.among (c.table.terminal sym) = true) : s.token.symbol = sym := by
  unfold State.among at among
  cases id : s.terminal with
  | none => simp [id] at among
  | some n =>
      rw [id] at among classed
      exact Table.termId?_inj classed.symm (Table.terminal_eq_single among)

theorem symbol_of_isEnd (ended : s.token.isEnd = true) : s.token.symbol = endSymbol := by
  rw [Token.isEnd, beq_iff_eq] at ended
  rw [Token.symbol, ended]
  rfl

theorem canStart_of_isEnd (law : c.table.Lawful o)
    (classed : s.terminal = c.table.termId? s.token.symbol) (ended : s.token.isEnd = true)
    {trial : Bool} {e : Expr} (admitted : c.table.admits o trial e = true) :
    s.canStart c e = false := by
  apply Bool.eq_false_iff.mpr
  intro starts
  have among := among_of_canStart e starts
  rw [State.among, classed, symbol_of_isEnd ended, law.symbols] at among
  exact absurd among (Bool.eq_false_iff.mp (law.first_no_end trial e admitted))

theorem isEnd_of_canStart (law : c.table.Lawful o)
    (classed : s.terminal = c.table.termId? s.token.symbol) {trial : Bool} {e : Expr}
    (admitted : c.table.admits o trial e = true) (starts : s.canStart c e = true) :
    s.token.isEnd = false := by
  apply Bool.eq_false_iff.mpr
  intro ended
  rw [canStart_of_isEnd law classed ended admitted] at starts
  contradiction

end Parser.State

end MqTree
