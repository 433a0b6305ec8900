import MqTree.Proofs.Parser.Run

namespace MqTree

/-! What the parser does where nothing is taken over from another tree, said as
a relation: no matter how deep a run goes and whether it is an attempt, what it
builds comes about in one of these ways. -/

/-- Whether an expression that the token cannot start is recovered from as a
whole, and not part by part. -/
def Expr.recovers : Expr → Bool
  | .tok _ _ | .leaf _ _ | .ref _ | .choice _ => true
  | _ => false

namespace Parser

def Returns (s r : State) : Prop :=
  ∃ reach trace, r = { s with lexer := ⟨s.lexer.toCursor, reach⟩, trace := trace }

namespace Returns

variable {s r q : State}

theorem refl (s : State) : Returns s s := ⟨s.lexer.reach, s.trace, rfl⟩

theorem trans (first : Returns s r) (second : Returns r q) : Returns s q := by
  obtain ⟨_, _, rfl⟩ := first
  obtain ⟨reach, trace, rfl⟩ := second
  exact ⟨reach, trace, rfl⟩

theorem log (s : State) (event : Event) : Returns s (s.log event) :=
  ⟨s.lexer.reach, event :: s.trace, rfl⟩

theorem rewind (same : r.reuse = s.reuse) : Returns s (r.rewind s) := by
  refine ⟨r.lexer.reach, r.trace, ?_⟩
  rw [State.rewind, same]
  rfl

theorem reuse (returns : Returns s r) : r.reuse = s.reuse := by
  obtain ⟨_, _, rfl⟩ := returns
  rfl

theorem prevEnd (returns : Returns s r) : r.prevEnd = s.prevEnd := by
  obtain ⟨_, _, rfl⟩ := returns
  rfl

end Returns

inductive Job where
  | task (task : Task)
  | recover (e : Expr) (field : String)
  | sequence (es : List Expr) (field : String)

def gather (s : State) (kind : String) (x : Suffix Expr) (built : List Item) : List Item :=
  if kind = x.kind && kind != "" then built else withField x.headField (closeSuffixes s kind built)

/-- Whether a whole is entered at the token, and not recovered from. -/
def State.meets (c : Context) (s : State) : Expr → Bool
  | .tok sym words => !s.token.isEnd && s.token.symbol == sym && s.accepts c words
  | .leaf _ sym => !s.token.isEnd && s.token.symbol == sym
  | .ref name => c.table.nullable (.ref name) || s.canStart c (.ref name)
  | .choice alts => (alts.find? (s.canStart c)).isSome
  | e => s.canStart c e

/-- The items of a job, and the state behind them. Where the token decides that
the parser comes to a case, `g` says how. -/
inductive Yields (c : Context) : Job → State → List Item → State → Prop
  | tok (more : s.token.isEnd = false) (symbol : s.token.symbol = sym)
      (word : s.accepts c words = true) :
      Yields c (.task (.expr (.tok sym words) field)) s
        (s.consume c field sym (isNamedSymbol sym)).1 (s.moved c)
  | leaf (more : s.token.isEnd = false) (symbol : s.token.symbol = sym) :
      Yields c (.task (.expr (.leaf kind sym) field)) s (s.consume c field kind true).1 (s.moved c)
  | recovered {g : s.meets c e = false} (whole : e.recovers = true)
      (inner : Yields c (.recover e field) s items r) :
      Yields c (.task (.expr e field)) s items r
  | placeholder (returns : Returns s r) (label : String) :
      Yields c (.recover e field) s [⟨field, s.prevEnd, .placeholder label⟩] r
  | skipped (found : skipTo c e s = (some error, q))
      (inner : Yields c (.task (.expr e field)) q items r) :
      Yields c (.recover e field) s (error :: items) r
  | spliced {name : String} (found : c.table.rule? name = some rule) (hidden : rule.hidden = true)
      (inner : Yields c (.task (.expr rule.body field)) s items r) :
      Yields c (.task (.expr (.ref name) field)) s items r
  | node {name : String} {g : s.meets c (.ref name) = true} (found : c.table.rule? name = some rule)
      (visible : rule.hidden = false)
      (inner : Yields c (.task (.expr rule.body "")) s items r) :
      Yields c (.task (.expr (.ref name) field)) s [r.finish rule.nodeKind field items] r
  | seq (inner : Yields c (.sequence es field) s items r) :
      Yields c (.task (.expr (.seq es) field)) s items r
  | nil : Yields c (.sequence [] field) s [] s
  | cons (head : Yields c (.task (.expr e field)) s items q)
      (rest : Yields c (.sequence es field) q more r) :
      Yields c (.sequence (e :: es) field) s (items ++ more) r
  | choice {g : s.canStart c alt = true} (member : alt ∈ alts)
      (inner : Yields c (.task (.expr alt field)) s items r) :
      Yields c (.task (.expr (.choice alts) field)) s items r
  | ordered (member : alt ∈ alts) (returns : Returns s q)
      (inner : Yields c (.task (.expr alt field)) q items r) :
      Yields c (.task (.expr (.ordered alts) field)) s items r
  | absent : Yields c (.task (.expr (.opt body) field)) s [] s
  | present {g : s.canStart c body = true}
      (inner : Yields c (.task (.expr body field)) s items r) :
      Yields c (.task (.expr (.opt body) field)) s items r
  | rep {min : Int} (inner : Yields c (.task (.copies body min 0 field)) s items r) :
      Yields c (.task (.expr (.rep body min) field)) s items r
  | enough {min : Int} {count : Nat} (least : min ≤ count) :
      Yields c (.task (.copies body min count field)) s [] s
  | copy {min : Int} {g : s.canStart c body = true}
      (one : Yields c (.task (.expr body field)) s items q)
      (rest : Yields c (.task (.copies body min (count + 1) field)) q more r) :
      Yields c (.task (.copies body min count field)) s (items ++ more) r
  | forced {min : Int} {count : Nat} {g : ¬min ≤ count}
      (one : Yields c (.recover body field) s items q)
      (rest : Yields c (.task (.copies body min (count + 1) field)) q more r) :
      Yields c (.task (.copies body min count field)) s (items ++ more) r
  | noElement : Yields c (.task (.expr (.sepBy elem sep trailing) field)) s [] s
  | list (inner : Yields c (.task (.elements elem sep trailing field)) s items r) :
      Yields c (.task (.expr (.sepBy elem sep trailing) field)) s items r
  | lastElement (one : Yields c (.task (.expr elem field)) s items r) :
      Yields c (.task (.elements elem sep trailing field)) s items r
  | separated (one : Yields c (.task (.expr elem field)) s items q) (symbol : q.token.symbol = sep)
      (rest : Yields c (.task (.elements elem sep trailing field)) (q.moved c) more r) :
      Yields c (.task (.elements elem sep trailing field)) s
        (items ++ ((q.consume c "" sep false).1 ++ more)) r
  | trailing (one : Yields c (.task (.expr elem field)) s items q) (symbol : q.token.symbol = sep) :
      Yields c (.task (.elements elem sep true field)) s (items ++ (q.consume c "" sep false).1)
        (q.moved c)
  | dangling (one : Yields c (.task (.expr elem field)) s items q) (symbol : q.token.symbol = sep)
      (rest : Yields c (.recover elem field) (q.moved c) more r) :
      Yields c (.task (.elements elem sep trailing field)) s
        (items ++ ((q.consume c "" sep false).1 ++ more)) r
  | field {name : String} (inner : Yields c (.task (.expr body name)) s items r) :
      Yields c (.task (.expr (.field name body) field)) s items r
  | immediate {g : s.canStart c body = true} (adjacent : s.token.start = s.prevEnd)
      (inner : Yields c (.task (.expr body field)) s items r) :
      Yields c (.task (.expr (.immediate body) field)) s items r
  | distant {g : ∃ label, items = [⟨field, s.prevEnd, .placeholder label⟩]}
      (refused : s.canStart c (.immediate body) = false)
      (inner : Yields c (.recover body field) s items r) :
      Yields c (.task (.expr (.immediate body) field)) s items r
  | sameLine {g : s.canStart c body = true} (unbroken : s.token.newlineBefore = false)
      (inner : Yields c (.task (.expr body field)) s items r) :
      Yields c (.task (.expr (.sameLine body) field)) s items r
  | broken (refused : s.canStart c (.sameLine body) = false)
      (inner : Yields c (.recover body field) s items r) :
      Yields c (.task (.expr (.sameLine body) field)) s items r
  | stmts (inner : Yields c (.task (.statements name item closers)) s items r) :
      Yields c (.task (.expr (.stmts name item closers) field)) s items r
  | ended : Yields c (.task (.statements name item closers)) s [] s
  | statement (one : Yields c (.task (.expr item name)) { s with pending := [] } items q)
      (rest : Yields c (.task (.statements name item closers)) q more r) :
      Yields c (.task (.statements name item closers)) s
        (s.pending ++ (markStatement { s with pending := [] } q items ++ more)) r
  | unexpected (skip : skipStatement c item closers { s with pending := [] } = (error, q))
      (rest : Yields c (.task (.statements name item closers)) q more r) :
      Yields c (.task (.statements name item closers)) s (s.pending ++ (error :: more)) r
  | suffixed (front : Yields c (.task (.expr head "")) s built q)
      (rest : Yields c (.task (.suffixes many all "" built field)) q items r) :
      Yields c (.task (.expr (.suffixed head many all) field)) s items r
  | noSuffix : Yields c (.task (.suffixes many all kind built field)) s
      (withField field (closeSuffixes s kind built)) s
  | suffix (member : x ∈ all) (starts : s.canStart c x.tail = true)
      (one : Yields c (.task (.expr x.tail "")) s more q)
      (rest : Yields c (.task (.suffixes true all x.kind (gather s kind x built ++ more) field)) q
        items r) :
      Yields c (.task (.suffixes true all kind built field)) s items r
  | onlySuffix (member : x ∈ all) (starts : s.canStart c x.tail = true)
      (one : Yields c (.task (.expr x.tail "")) s more q) :
      Yields c (.task (.suffixes false all kind built field)) s
        (withField field (closeSuffixes q x.kind (gather s kind x built ++ more))) q
  | binary (inner : Yields c (.task (.operand kind operand ops 0 field)) s items r) :
      Yields c (.task (.expr (.binary kind operand ops) field)) s items r
  | operand (one : Yields c (.task (.expr operand "")) s left q)
      (rest : Yields c (.task (.operators kind operand ops least left field)) q items r) :
      Yields c (.task (.operand kind operand ops least field)) s items r
  | noOperator (loose : ∀ power, power? ops s = some power → power < least) :
      Yields c (.task (.operators kind operand ops least left field)) s (withField field left) s
  | operator (mark : s.token.kind = .punctuation) (member : s.token.lit ∈ ops.map Prod.fst)
      (found : power? ops s = some power) (tight : least ≤ power)
      (one : Yields c (.task (.operand kind operand ops (power + 1) "right")) (s.moved c) right q)
      (rest : Yields c (.task (.operators kind operand ops least
        [q.finish kind "" (withField "left" left ++
          (s.consume c "operator" s.token.symbol false).1 ++ right)] field)) q items r) :
      Yields c (.task (.operators kind operand ops least left field)) s items r
  | unsigned (inner : Yields c (.task (.expr operand field)) s items r) :
      Yields c (.task (.expr (.unary kind ops operand) field)) s items r
  | signed (mark : s.token.kind = .punctuation) (member : s.token.lit ∈ ops)
      (inner : Yields c (.task (.expr (.unary kind ops operand) "operand")) (s.moved c) items r) :
      Yields c (.task (.expr (.unary kind ops operand) field)) s
        [r.finish kind field ((s.consume c "operator" s.token.lit false).1 ++ items)] r

variable {c : Context} {s r q : State}

theorem State.kept_advanceUpTo (c : Context) (n : Nat) (s : State) :
    (s.advanceUpTo c n).reuse = s.reuse ∧ (s.advanceUpTo c n).prevEnd = s.prevEnd := by
  induction n generalizing s with
  | zero => exact ⟨rfl, rfl⟩
  | succ n ih =>
      rw [State.advanceUpTo_succ]
      split
      · exact ih _
      · exact ⟨rfl, rfl⟩

theorem State.reuse_moved (c : Context) (s : State) : (s.moved c).reuse = s.reuse :=
  (State.kept_advanceUpTo c _ _).1

theorem State.prevEnd_moved (c : Context) (s : State) : (s.moved c).prevEnd = s.token.stop :=
  (State.kept_advanceUpTo c _ _).2

theorem reuse_skipUpTo {e : Expr} {n count : Nat} {skipped : List Item} :
    (skipUpTo c e n count skipped s).2.reuse = s.reuse := by
  induction n generalizing s count skipped with
  | zero => rfl
  | succ n ih =>
      rw [skipUpTo]
      split
      · show (if (s.moved c).canStart c e then _ else _ : Option (List Item × Nat) × State).2.reuse = _
        split
        · exact State.reuse_moved c s
        · exact ih.trans (State.reuse_moved c s)
      · rfl

theorem reuse_skipTo {e : Expr} {found : Option Item} (skip : skipTo c e s = (found, r)) :
    r.reuse = s.reuse := by
  have same := @reuse_skipUpTo c s e c.window 0 []
  unfold skipTo at skip
  split at skip
  next skipped count next result =>
    rw [← (Prod.mk.inj skip).2]
    rw [result] at same
    exact same
  next next result =>
    rw [← (Prod.mk.inj skip).2]
    rw [result] at same
    exact same

theorem reuse_consumeUntil (stop : State → Bool) (n : Nat) (s : State) :
    (consumeUntil c stop n s).2.reuse = s.reuse := by
  induction n generalizing s with
  | zero => rfl
  | succ n ih =>
      rw [consumeUntil]
      split
      · rfl
      · exact (ih (s.moved c)).trans (State.reuse_moved c s)

def Alone (trial : Bool) (s : State) : Prop := trial = true ∨ s.reuse.entries = []

theorem Alone.next {trial : Bool} (alone : Alone trial s) (same : r.reuse = s.reuse) :
    Alone trial r := by
  rw [Alone, same]
  exact alone

theorem Alone.reuse?_eq_none {trial : Bool} (alone : Alone trial s) (field : String) :
    reuse? { c with speculating := trial } field s = none := by
  unfold reuse?
  rcases alone with rfl | fresh
  · rfl
  · have empty : s.reuse.take? (Int64.ofNat s.token.start) = none := by
      rw [ReuseIndex.take?, fresh]
      rfl
    simp only [empty, Option.map_none, ite_self]

def Outcome.Leaves (s : State) (made : List Item → State → Prop) : Outcome → Prop
  | .done items r => made items r ∧ r.reuse = s.reuse
  | .failed r => r.reuse = s.reuse
  | .halted _ => True

namespace Outcome.Leaves

variable {o : Outcome} {made made' : List Item → State → Prop}

theorem mono (leaves : o.Leaves s made) (imp : ∀ items r, made items r → made' items r) :
    o.Leaves s made' := by
  cases o with
  | done items r => exact ⟨imp items r leaves.1, leaves.2⟩
  | failed r => exact leaves
  | halted v => trivial

theorem behind (leaves : o.Leaves q made) (same : q.reuse = s.reuse) : o.Leaves s made := by
  cases o with
  | done items r => exact ⟨leaves.1, leaves.2.trans same⟩
  | failed r => exact leaves.trans same
  | halted v => trivial

theorem bind {k : List Item → State → Outcome} (leaves : o.Leaves s made)
    (next : ∀ items r, made items r → r.reuse = s.reuse → (k items r).Leaves r made') :
    (o.bind k).Leaves s made' := by
  cases o with
  | done items r => exact (next items r leaves.1 leaves.2).behind leaves.2
  | failed r => exact leaves
  | halted v => trivial

theorem after (leaves : o.Leaves s made) (front : List Item)
    (imp : ∀ items r, made items r → made' (front ++ items) r) : (o.after front).Leaves s made' :=
  leaves.bind fun items r here _ => ⟨imp items r here, rfl⟩

end Outcome.Leaves

def Does (c : Context) (runner : Runner) : Prop :=
  ∀ trial task s, Alone trial s →
    (runner { c with speculating := trial } task s).Leaves s (Yields c (.task task) s)

section

variable {runner : Runner} (does : Does c runner) (calm : c.speculating = false) {trial : Bool}

include does calm

theorem recover_leaves (alone : Alone trial s) (e : Expr) (field : String) (maySkip : Bool) :
    (recover runner { c with speculating := trial } e field maySkip s).Leaves s
      (Yields c (.recover e field) s) := by
  have placed {q : State} (returns : Returns s q) :
      (placeholder c e field q).Leaves s (Yields c (.recover e field) s) := by
    unfold Parser.placeholder
    split
    · trivial
    · obtain ⟨reach, trace, rfl⟩ := returns
      exact ⟨.placeholder (Returns.trans ⟨reach, trace, rfl⟩ (.log _ _)) _, rfl⟩
  cases trial with
  | true => exact rfl
  | false =>
      have untried : { c with speculating := false } = c := by rw [← calm]
      rw [untried]
      unfold Parser.recover
      rw [if_neg (by rw [calm]; exact Bool.false_ne_true)]
      split
      · split
        next error next found =>
          have kept := reuse_skipTo found
          have inner := does false (.expr e field) next (alone.next kept)
          rw [untried] at inner
          exact (inner.behind kept).after [error] fun items r yields => .skipped found yields
        next next found =>
          unfold skipTo at found
          split at found
          · simp at found
          next last result =>
            have kept := @reuse_skipUpTo c s e c.window 0 []
            rw [result] at kept
            rw [← (Prod.mk.inj found).2]
            exact placed (.rewind kept)
      · exact placed (.refl s)

theorem recover_leaves_placeholder (alone : Alone trial s) (e : Expr) (field : String) :
    (recover runner { c with speculating := trial } e field false s).Leaves s fun items r =>
      Yields c (.recover e field) s items r ∧
        ∃ label, items = [⟨field, s.prevEnd, .placeholder label⟩] := by
  have leaves := recover_leaves does calm alone e field false
  unfold recover at leaves ⊢
  rw [if_neg Bool.false_ne_true] at leaves ⊢
  split at leaves
  next trialled =>
    rw [if_pos trialled]
    exact leaves
  next serious =>
    rw [if_neg serious]
    unfold Parser.placeholder at leaves ⊢
    split at leaves
    · trivial
    next label _ => exact ⟨⟨leaves.1, label, rfl⟩, leaves.2⟩

omit calm in
theorem sequence_leaves (alone : Alone trial s) (field : String) (es : List Expr) :
    (sequence runner { c with speculating := trial } field es s).Leaves s
      (Yields c (.sequence es field) s) := by
  induction es generalizing s with
  | nil => exact ⟨.nil, rfl⟩
  | cons e es ih =>
      refine (does trial (.expr e field) s alone).bind fun items q one same => ?_
      exact (ih (alone.next same)).after items fun more r rest => .cons one rest

omit calm in
theorem attempt_leaves (alone : Alone trial s) (field : String) (alts : List Expr) :
    (attempt runner { c with speculating := trial } field alts s).Leaves s
      fun items r => ∃ alt ∈ alts, ∃ q, Returns s q ∧
        Yields c (.task (.expr alt field)) q items r := by
  induction alts generalizing s with
  | nil => trivial
  | cons alt rest ih =>
      cases rest with
      | nil =>
          rw [attempt]
          exact (does trial (.expr alt field) s alone).mono fun items r yields =>
            ⟨alt, List.mem_cons_self, s, .refl s, yields⟩
      | cons next rest =>
          have later {q : State} (returns : Returns s q) :
              (attempt runner { c with speculating := trial } field (next :: rest) q).Leaves s
                fun items r => ∃ alt' ∈ alt :: next :: rest, ∃ q, Returns s q ∧
                  Yields c (.task (.expr alt' field)) q items r := by
            refine ((ih (alone.next returns.reuse)).behind returns.reuse).mono ?_
            rintro items r ⟨other, member, q', back, yields⟩
            exact ⟨other, List.mem_cons_of_mem alt member, q', returns.trans back, yields⟩
          rw [attempt]
          · split
            · have trialled := does true (.expr alt field) s (Or.inl rfl)
              split
              next stuck failed =>
                rw [failed] at trialled
                exact later (.rewind trialled)
              next outcome _ =>
                exact trialled.mono fun items r yields =>
                  ⟨alt, List.mem_cons_self, s, .refl s, yields⟩
            · exact later (.refl s)
          · exact List.cons_ne_nil next rest

theorem reference_leaves (alone : Alone trial s) (name field : String) :
    (reference runner { c with speculating := trial } name field s).Leaves s
      (Yields c (.task (.expr (.ref name) field)) s) := by
  have meets : s.meets c (.ref name) =
      !(!c.table.nullable (.ref name) && !s.canStart c (.ref name)) := by
    rw [State.meets, Bool.not_and, Bool.not_not, Bool.not_not]
  unfold reference
  rw [State.canStart_speculating]
  split
  next cold =>
    have unmet : s.meets c (.ref name) = false := by rw [meets, cold, Bool.not_true]
    exact (recover_leaves does calm alone (.ref name) field true).mono fun items r =>
      .recovered (g := unmet) rfl
  next warm =>
    have met : s.meets c (.ref name) = true := by
      rw [meets, Bool.eq_false_iff.mpr warm, Bool.not_false]
    split
    · trivial
    next rule found =>
      split
      next hidden =>
        exact (does trial _ s alone).mono fun items r => .spliced found hidden
      next visible =>
        refine (does trial _ s alone).bind fun items r inner _ =>
          ⟨.node (g := met) found ?_ inner, rfl⟩
        exact Bool.eq_false_iff.mpr visible

theorem choice_leaves (alone : Alone trial s) (alts : List Expr) (field : String) :
    (expression runner { c with speculating := trial } field (.choice alts) s).Leaves s
      (Yields c (.task (.expr (.choice alts) field)) s) := by
  have same : s.canStart { c with speculating := trial } = s.canStart c :=
    funext fun _ => State.canStart_speculating ..
  simp only [expression, same]
  split
  next alt found =>
    have member := List.mem_of_find?_eq_some found
    have starts := List.find?_some found
    exact (does trial (.expr alt field) s alone).mono fun items r => .choice (g := starts) member
  next none =>
    have unmet : s.meets c (.choice alts) = false := by
      rw [State.meets, none]
      rfl
    exact (recover_leaves does calm alone (.choice alts) field true).mono fun items r =>
      .recovered (g := unmet) rfl

omit calm in
theorem unary_leaves (alone : Alone trial s) (kind : String) (ops : List String) (operand : Expr)
    (field : String) :
    (expression runner { c with speculating := trial } field (.unary kind ops operand) s).Leaves s
      (Yields c (.task (.expr (.unary kind ops operand) field)) s) := by
  simp only [expression]
  split
  next here =>
    rw [Bool.and_eq_true, beq_iff_eq, List.contains_iff_mem] at here
    have same := State.reuse_moved c s
    rw [State.consume_snd, State.moved_speculating]
    refine Outcome.Leaves.behind (q := s.moved c) ?_ same
    refine (does trial _ (s.moved c) (alone.next same)).bind fun more r inner _ => ?_
    exact ⟨.signed here.1 here.2 inner, rfl⟩
  next => exact (does trial (.expr operand field) s alone).mono fun items r => .unsigned

theorem expression_leaves (alone : Alone trial s) (e : Expr) (field : String) :
    (expression runner { c with speculating := trial } field e s).Leaves s
      (Yields c (.task (.expr e field)) s) := by
  have recovers (e : Expr) (whole : e.recovers = true) (unmet : s.meets c e = false) :
      (recover runner { c with speculating := trial } e field true s).Leaves s
        (Yields c (.task (.expr e field)) s) :=
    (recover_leaves does calm alone e field true).mono fun items r =>
      .recovered (g := unmet) whole
  cases e with
  | tok sym words =>
      simp only [expression]
      split
      next here =>
        rw [Bool.and_eq_true, Bool.and_eq_true, Bool.not_eq_true', beq_iff_eq] at here
        rw [State.consume_snd, State.moved_speculating]
        exact ⟨.tok here.1.1 here.1.2 here.2, State.reuse_moved c s⟩
      next other => exact recovers _ rfl (Bool.eq_false_iff.mpr other)
  | leaf kind sym =>
      simp only [expression]
      split
      next here =>
        rw [Bool.and_eq_true, Bool.not_eq_true', beq_iff_eq] at here
        rw [State.consume_snd, State.moved_speculating]
        exact ⟨.leaf here.1 here.2, State.reuse_moved c s⟩
      next other => exact recovers _ rfl (Bool.eq_false_iff.mpr other)
  | ref name => exact reference_leaves does calm alone name field
  | seq es => exact (sequence_leaves does alone field es).mono fun items r => .seq
  | choice alts => exact choice_leaves does calm alone alts field
  | ordered alts =>
      refine (attempt_leaves does alone field alts).mono ?_
      rintro items r ⟨alt, member, q, returns, yields⟩
      exact .ordered member returns yields
  | opt body =>
      simp only [expression]
      split
      next starts =>
        rw [State.canStart_speculating] at starts
        exact (does trial (.expr body field) s alone).mono fun items r => .present (g := starts)
      next => exact ⟨.absent, rfl⟩
  | rep body min =>
      exact (does trial (.copies body min 0 field) s alone).mono fun items r => .rep
  | sepBy elem sep trailing =>
      simp only [expression]
      split
      · exact (does trial (.elements elem sep trailing field) s alone).mono fun items r => .list
      · exact ⟨.noElement, rfl⟩
  | field name body =>
      exact (does trial (.expr body name) s alone).mono fun items r => .field
  | immediate body =>
      simp only [expression]
      split
      next starts =>
        rw [State.canStart_speculating, State.canStart, Bool.and_eq_true, beq_iff_eq] at starts
        exact (does trial (.expr body field) s alone).mono fun items r =>
          .immediate (g := starts.2) starts.1
      next other =>
        rw [State.canStart_speculating, Bool.not_eq_true] at other
        exact (recover_leaves_placeholder does calm alone body field).mono fun items r inner =>
          .distant (g := inner.2) other inner.1
  | sameLine body =>
      simp only [expression]
      split
      next starts =>
        rw [State.canStart_speculating, State.canStart, Bool.and_eq_true, Bool.not_eq_true']
          at starts
        exact (does trial (.expr body field) s alone).mono fun items r =>
          .sameLine (g := starts.2) starts.1
      next other =>
        rw [State.canStart_speculating, Bool.not_eq_true] at other
        exact (recover_leaves does calm alone body field false).mono fun items r => .broken other
  | stmts name item closers =>
      exact (does trial (.statements name item closers) s alone).mono fun items r => .stmts
  | suffixed head many suffixes =>
      refine (does trial (.expr head "") s alone).bind fun built q front same => ?_
      exact (does trial _ q (alone.next same)).mono fun items r => .suffixed front
  | binary kind operand ops =>
      exact (does trial (.operand kind operand ops 0 field) s alone).mono fun items r => .binary
  | unary kind ops operand => exact unary_leaves does alone kind ops operand field

theorem copies_leaves (alone : Alone trial s) (body : Expr) (min : Int) (count : Nat)
    (field : String) :
    (copies runner { c with speculating := trial } body min count field s).Leaves s
      (Yields c (.task (.copies body min count field)) s) := by
  have rest {q : State} (same : q.reuse = s.reuse) :=
    does trial (.copies body min (count + 1) field) q (alone.next same)
  unfold copies
  split
  next starts =>
    rw [State.canStart_speculating] at starts
    refine (does trial (.expr body field) s alone).bind fun items q one same => ?_
    exact (rest same).after items fun more r => .copy (g := starts) one
  next =>
    split
    next least => exact ⟨.enough least, rfl⟩
    next few =>
      refine (recover_leaves does calm alone body field true).bind fun items q one same => ?_
      exact (rest same).after items fun more r => .forced (g := few) one

theorem elements_leaves (alone : Alone trial s) (elem : Expr) (sep : String) (trailing : Bool)
    (field : String) :
    (elements runner { c with speculating := trial } elem sep trailing field s).Leaves s
      (Yields c (.task (.elements elem sep trailing field)) s) := by
  refine (does trial (.expr elem field) s alone).bind fun items q one same => ?_
  simp only
  split
  · refine ⟨?_, rfl⟩
    rw [List.append_nil]
    exact .lastElement one
  next other =>
    have symbol : q.token.symbol = sep := by simpa using other
    have moved := State.reuse_moved c q
    have alone' : Alone trial (q.moved c) := alone.next (moved.trans same)
    rw [State.consume_snd, State.moved_speculating]
    refine Outcome.Leaves.behind (q := q.moved c) ?_ moved
    -- Behind the separator there is another element, or nothing, or something for one.
    suffices behind : Outcome.Leaves (q.moved c) (fun rest r =>
        Yields c (.task (.elements elem sep trailing field)) s (items ++ rest) r) _ from
      behind.after items fun _ _ made => made
    split
    · exact (does trial _ _ alone').after _ fun more r rest => .separated one symbol rest
    · split
      next more =>
        subst more
        refine ⟨?_, rfl⟩
        rw [List.append_nil]
        exact .trailing one symbol
      next =>
        exact (recover_leaves does calm alone' elem field false).after _
          fun more r rest => .dangling one symbol rest

theorem statements_leaves (alone : Alone trial s) (field : String) (item : Expr)
    (closers : List String) :
    (statements runner { c with speculating := trial } field item closers s).Leaves s
      (Yields c (.task (.statements field item closers)) s) := by
  unfold statements
  split
  · exact ⟨.ended, rfl⟩
  · suffices behind : Outcome.Leaves s (fun rest r =>
        Yields c (.task (.statements field item closers)) s (s.pending ++ rest) r) _ from
      behind.after s.pending fun _ _ made => made
    have nothing := @Alone.reuse?_eq_none c { s with pending := [] } trial alone field
    simp only [nothing]
    split
    · have first := does trial (.expr item field) { s with pending := [] } alone
      refine Outcome.Leaves.behind (q := { s with pending := [] }) ?_ rfl
      refine first.bind fun items q one same => ?_
      exact (does trial _ q (alone.next same)).after _ fun more r rest => .statement one rest
    · cases trial with
      | true => exact rfl
      | false =>
          have untried : { c with speculating := false } = c := by rw [← calm]
          rw [untried]
          simp only [Bool.false_eq_true, if_false]
          have skip : skipStatement c item closers { s with pending := [] } = (_, _) := rfl
          have kept : (skipStatement c item closers { s with pending := [] }).2.reuse = s.reuse :=
            (reuse_consumeUntil _ _ _).trans (State.reuse_moved c _)
          have rest := does false (.statements field item closers) _ (alone.next kept)
          rw [untried] at rest
          exact (rest.behind kept).after _ fun more r later => .unexpected skip later

omit calm in
theorem suffixes_leaves (alone : Alone trial s) (many : Bool) (all : List (Suffix Expr))
    (kind : String) (built : List Item) (field : String) :
    (suffixes runner { c with speculating := trial } many all kind built field s).Leaves s
      (Yields c (.task (.suffixes many all kind built field)) s) := by
  unfold suffixes
  split
  · exact ⟨.noSuffix, rfl⟩
  next x found =>
    have member := List.mem_of_find?_eq_some found
    have starts := List.find?_some found
    rw [State.canStart_speculating] at starts
    refine (does trial (.expr x.tail "") s alone).bind fun more q one same => ?_
    cases many with
    | true =>
        exact (does trial _ q (alone.next same)).mono fun items r rest =>
          .suffix member starts one rest
    | false => exact ⟨.onlySuffix member starts one, rfl⟩

omit calm in
theorem operators_leaves (alone : Alone trial s) (kind : String) (operand : Expr)
    (ops : List (String × UInt8)) (least : UInt8) (left : List Item) (field : String) :
    (operators runner { c with speculating := trial } kind operand ops least left field s).Leaves s
      (Yields c (.task (.operators kind operand ops least left field)) s) := by
  unfold operators
  split
  next none =>
    refine ⟨.noOperator fun power found => ?_, rfl⟩
    rw [none] at found
    contradiction
  next power found =>
    split
    next loose =>
      refine ⟨.noOperator fun other same => ?_, rfl⟩
      rwa [← Option.some.inj (found.symm.trans same)]
    next tight =>
      have listed := found
      unfold power? at listed
      split at listed
      next mark =>
        obtain ⟨before, after, split, _⟩ := List.lookup_eq_some_iff.mp listed
        have member : s.token.lit ∈ ops.map Prod.fst := by
          rw [split]
          simp
        have moved := State.reuse_moved c s
        change Outcome.Leaves s _ ((runner _ _ (s.moved { c with speculating := trial })).bind _)
        rw [State.moved_speculating]
        refine Outcome.Leaves.behind (q := s.moved c) ?_ moved
        refine (does trial _ _ (alone.next moved)).bind fun right q one same => ?_
        exact (does trial _ q (alone.next (same.trans moved))).mono fun items r rest =>
          .operator (beq_iff_eq.mp mark) member found (UInt8.not_lt.mp tight) one rest
      next => contradiction

end

/-- Whatever a run makes that takes nothing over, it makes as told. -/
theorem run_does (calm : c.speculating = false) (n : Nat) : Does c (run n) := by
  induction n with
  | zero => exact fun trial task s alone => trivial
  | succ n ih =>
      intro trial task s alone
      cases task with
      | expr e field => exact expression_leaves ih calm alone e field
      | copies body min count field => exact copies_leaves ih calm alone body min count field
      | elements elem sep trailing field =>
          exact elements_leaves ih calm alone elem sep trailing field
      | statements field item closers => exact statements_leaves ih calm alone field item closers
      | suffixes many all kind built field =>
          exact suffixes_leaves ih alone many all kind built field
      | operand kind operand ops least field =>
          refine (ih trial (.expr operand "") s alone).bind fun left q one same => ?_
          exact (ih trial _ q (alone.next same)).mono fun items r rest => .operand one rest
      | operators kind operand ops least left field =>
          exact operators_leaves ih alone kind operand ops least left field

theorem yields_of_run {n : Nat} {task : Task} {items : List Item} (calm : c.speculating = false)
    (fresh : s.reuse.entries = []) (done : run n c task s = .done items r) :
    Yields c (.task task) s items r := by
  have leaves := run_does calm n false task s (Or.inr fresh)
  rw [show { c with speculating := false } = c by rw [← calm], done] at leaves
  exact leaves.1

end Parser

end MqTree
