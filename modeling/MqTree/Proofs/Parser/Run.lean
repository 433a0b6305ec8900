import MqTree.Proofs.Parser.Progress

namespace MqTree.Parser

variable {c : Context} {o : Outline} {s r : State} {items : List Item}

theorem State.canStart_log (s : State) (event : Event) (e : Expr) :
    (s.log event).canStart c e = s.canStart c e :=
  have like : LooksLike c s c (s.log event) := ⟨rfl, rfl, fun _ => rfl, rfl, rfl⟩
  like.canStart e

/-! ### Recovery -/

theorem Ready.consume (ready : Ready c o s) (more : s.token.isEnd = false) (field : String)
    {kind : String} (proper : kind ≠ missingKind) (named : Bool) :
    Built c s (s.consume c field kind named).1 (s.moved c) ∧ s.token.start < (s.moved c).prevEnd ∧
      (s.moved c).reuse = s.reuse := by
  obtain ⟨frames, stands⟩ := ready.stands
  obtain ⟨_, prevEnd, reuse, _, _⟩ := stands.moved
  refine ⟨.token more field proper named, ?_, reuse⟩
  rw [prevEnd]
  exact (stands.reached.start_lt more).1

theorem Ready.consumeAny (ready : Ready c o s) (more : s.token.isEnd = false) :
    Built c s (s.consumeAny c).1 (s.moved c) ∧ s.token.start < (s.moved c).prevEnd ∧
      (s.moved c).reuse = s.reuse := by
  obtain ⟨frames, stands⟩ := ready.stands
  exact ready.consume more "" stands.reached.symbol_ne_missing _

theorem isEnd_of_skippable (skippable : s.skippable = true) : s.token.isEnd = false := by
  rw [State.skippable, Bool.not_eq_true', Bool.or_eq_false_iff, Bool.or_eq_false_iff,
    Bool.or_eq_false_iff] at skippable
  exact skippable.1.1.1

theorem skipUpTo_spec {q : State} {e : Expr} {n count : Nat} {skipped : List Item}
    (ready : Ready c o q) (built : Built c q skipped s) (kept : s.reuse = q.reuse) :
    match skipUpTo c e n count skipped s with
    | (some (all, _), r) =>
        Built c q all r ∧ all ≠ [] ∧ q.token.start < r.prevEnd ∧ r.canStart c e = true
    | (none, r) =>
        q.lexer.reach ≤ r.lexer.reach ∧ r.lexer.reach ≤ c.src.size + 1 ∧ r.reuse = q.reuse := by
  induction n generalizing s count skipped with
  | zero =>
      obtain ⟨frames, stands⟩ := (ready.next built).stands
      exact ⟨(ready.passed built).reach, stands.reach_le, kept⟩
  | succ n ih =>
      obtain ⟨frames, stands⟩ := (ready.next built).stands
      by_cases skippable : s.skippable = true
      · have more := isEnd_of_skippable skippable
        obtain ⟨taken, moved, same⟩ := (ready.next built).consumeAny more
        have all := built.append taken
        have start := (ready.passed built).start_le
        by_cases starts : (s.moved c).canStart c e = true
        · have step : skipUpTo c e (n + 1) count skipped s =
              (some (skipped ++ (s.consumeAny c).1, count + 1), s.moved c) := by
            rw [skipUpTo, if_pos skippable]
            exact if_pos starts
          rw [step]
          refine ⟨all, ?_, Nat.lt_of_le_of_lt start moved, starts⟩
          simp [State.consumeAny]
        · have step : skipUpTo c e (n + 1) count skipped s =
              skipUpTo c e n (count + 1) (skipped ++ (s.consumeAny c).1) (s.moved c) := by
            rw [skipUpTo, if_pos skippable]
            exact if_neg starts
          rw [step]
          exact ih all (same.trans kept)
      · rw [skipUpTo, if_neg skippable]
        exact ⟨(ready.passed built).reach, stands.reach_le, kept⟩

theorem Ready.idle (ready : Ready c o s) : Built c s [] s := by
  obtain ⟨frames, stands⟩ := ready.stands
  exact .idle (.refl s) stands.reach_le

theorem Ready.log (ready : Ready c o s) (event : Event) : Built c s [] (s.log event) := by
  obtain ⟨frames, stands⟩ := ready.stands
  exact .idle (.log s event) stands.reach_le

theorem skipTo_some {e : Expr} {error : Item} (ready : Ready c o s)
    (found : skipTo c e s = (some error, r)) :
    Built c s [error] r ∧ s.token.start < r.prevEnd ∧ r.canStart c e = true := by
  have spec := @skipUpTo_spec c o s s e c.window 0 [] ready ready.idle rfl
  unfold skipTo at found
  split at found
  next skipped count next result =>
    obtain ⟨made, rfl⟩ := Prod.mk.inj found
    rw [result] at spec
    obtain ⟨built, some, moved, starts⟩ := spec
    have error' := built.wrap some (show errorKind ≠ missingKind by decide) ""
    have logged := error'.append ((ready.next error').log (.skipped count next.token))
    rw [List.append_nil, Option.some.inj made] at logged
    exact ⟨logged, moved, (State.canStart_log next _ e).trans starts⟩
  next => simp at found

theorem skipTo_none {e : Expr} (ready : Ready c o s) (found : skipTo c e s = (none, r)) :
    Built c s [] r := by
  have spec := @skipUpTo_spec c o s s e c.window 0 [] ready ready.idle rfl
  unfold skipTo at found
  split at found
  next => simp at found
  next next result =>
    rw [result] at spec
    obtain ⟨reach, limit, reuse⟩ := spec
    rw [← (Prod.mk.inj found).2]
    exact .idle (.rewind reach reuse) limit

theorem placeholder_done {e : Expr} (ready : Ready c o s)
    (described : (describe? c.table e).isSome = true) (field : String) :
    ∃ it r, placeholder c e field s = .done [it] r ∧ Built c s [it] r := by
  obtain ⟨label, description⟩ := Option.isSome_iff_exists.mp described
  refine ⟨⟨field, s.prevEnd, .placeholder label⟩, s.log (.missing label s.token), ?_, ?_⟩
  · rw [placeholder, description]
  · have made := (Built.missing (c := c) s field label).append (ready.log (.missing label s.token))
    rwa [List.append_nil] at made

structure Opens (s : State) (items : List Item) (r : State) : Prop where
  moved : s.token.start < r.prevEnd
  some : items ≠ []
  led : s.pending = [] → Led s.token.start items

theorem Opens.append {q : State} {more : List Item} (opens : Opens s items r)
    (later : r.prevEnd ≤ q.prevEnd) : Opens s (items ++ more) q where
  moved := Nat.lt_of_lt_of_le opens.moved later
  some := fun none => opens.some (List.append_eq_nil_iff.mp none).1
  led := fun pending => (opens.led pending).append more

theorem Opens.grows {q : State} {more : List Item} (opens : Opens s items r)
    (grows : Grows c r items more q) : Opens s more q where
  moved := Nat.lt_of_lt_of_le opens.moved grows.passed.prevEnd
  some := grows.some opens.some
  led := fun pending => grows.led _ (opens.led pending)

/-- What is required of a run of a task. -/
def Works (o : Outline) (fuel : Nat) (runner : Runner) (c : Context) (task : Task) (s : State) :
    Prop :=
  ∀ led, (led = true → task.Hot c s) →
    Ends c s fuel (s.budget c o + task.cost o.rank led)
      (fun items r => task.Makes c s items r ∧ (task.Hot c s → Opens s items r)) (runner c task s)

def AllWork (o : Outline) (fuel : Nat) (runner : Runner) : Prop :=
  ∀ {c : Context} (task : Task) {s : State}, Ready c o s →
    task.Admitted c.table o c.speculating → Works o fuel runner c task s

theorem affords_of_admits {t : Table} {trial : Bool} {e : Expr}
    (admitted : t.admits o trial e = true) (led : Bool) : e.cost o.rank led ≤ o.bound := by
  have affords : o.affords e = true := by
    cases e
    all_goals
      simp only [Table.admits, Bool.and_eq_true] at admitted
      simp only [admitted]
  rw [Outline.affords, Bool.and_eq_true, decide_eq_true_iff, decide_eq_true_iff] at affords
  cases led
  · exact affords.2
  · exact affords.1

section

variable {runner : Runner} {fuel : Nat} (works : AllWork o fuel runner) (ready : Ready c o s)

include works ready

theorem expr_ends {e : Expr} (admitted : c.table.admits o c.speculating e = true) (field : String)
    (led : Bool)
    (hot : led = true → e.leads c.table.nullables = true ∧ s.canStart c e = true) :
    Ends c s fuel (s.budget c o + e.cost o.rank led)
      (fun items r => Built c s items r ∧
        (e.leads c.table.nullables = true ∧ s.canStart c e = true → Opens s items r))
      (runner c (.expr e field) s) :=
  works (.expr e field) ready admitted led hot

theorem recover_ends {e : Expr} (leads : e.leads c.table.nullables = true)
    (admitted : c.table.admits o c.speculating e = true)
    (described : (describe? c.table e).isSome = true) (field : String) (maySkip : Bool) :
    Ends c s fuel (s.budget c o) (fun items r => Built c s items r)
      (recover runner c e field maySkip s) := by
  have placed (q : State) (ready' : Ready c o q) (built : Built c s [] q) :
      Ends c s fuel (s.budget c o) (fun items r => Built c s items r)
        (placeholder c e field q) := by
    obtain ⟨it, r, made, more⟩ := placeholder_done ready' described field
    rw [made]
    exact built.append more
  unfold recover
  split
  next trial =>
    obtain ⟨frames, stands⟩ := ready.stands
    exact ⟨trial, Nat.le_refl _, stands.reach_le, rfl⟩
  next =>
    split
    · split
      next error next found =>
        obtain ⟨built, moved, starts⟩ := skipTo_some ready found
        have cheap := affords_of_admits admitted true
        have room := ready.budget_lt built moved
        have inner := expr_ends works (ready.next built) admitted field true fun _ => ⟨leads, starts⟩
        apply Ends.after (inner.behind ready built |>.mono (by omega) fun _ _ made => made)
        intro rest r made
        exact built.append made.1
      next next found =>
        have built := skipTo_none ready found
        exact placed next (ready.next built) built
    · exact placed s ready ready.idle

omit works ready in
theorem costOfSeq_le {t : Table} {trial : Bool} {es : List Expr}
    (admitted : t.admitsAll o trial es = true) : Expr.costOfSeq o.rank false es ≤ o.bound := by
  induction es with
  | nil => exact Nat.zero_le _
  | cons e es ih =>
      rw [Table.admitsAll, Bool.and_eq_true] at admitted
      have here := affords_of_admits admitted.1 false
      have rest := ih admitted.2
      simp only [Expr.costOfSeq, Bool.false_eq_true, if_false]
      omega

omit works ready in
theorem head_starts {e : Expr} {es : List Expr}
    (leads : Expr.leadsHead c.table.nullables (e :: es) = true)
    (starts : s.sequenceCanStart c (e :: es) = true) :
    e.leads c.table.nullables = true ∧ s.canStart c e = true := by
  rw [Expr.leadsHead, Bool.and_eq_true, Bool.not_eq_true'] at leads
  have required : c.table.nullable e = false := leads.2
  rw [State.sequenceCanStart, required, Bool.false_and, Bool.or_false] at starts
  exact ⟨leads.1, starts⟩

omit ready in
theorem sequence_ends {es : List Expr} (ready : Ready c o s)
    (admitted : c.table.admitsAll o c.speculating es = true) (field : String) (led : Bool)
    (hot : led = true →
      Expr.leadsHead c.table.nullables es = true ∧ s.sequenceCanStart c es = true) :
    Ends c s fuel (s.budget c o + Expr.costOfSeq o.rank led es)
      (fun items r => Built c s items r ∧
        (Expr.leadsHead c.table.nullables es = true ∧ s.sequenceCanStart c es = true →
          Opens s items r))
      (sequence runner c field es s) := by
  induction es generalizing s led with
  | nil => exact ⟨ready.idle, fun starts => by simp [Expr.leadsHead] at starts⟩
  | cons e es ih =>
      rw [Table.admitsAll, Bool.and_eq_true] at admitted
      have first (starts : Expr.leadsHead c.table.nullables (e :: es) = true ∧
          s.sequenceCanStart c (e :: es) = true) :
          e.leads c.table.nullables = true ∧ s.canStart c e = true := head_starts starts.1 starts.2
      have head := expr_ends works ready admitted.1 field led fun isLed => first (hot isLed)
      have cheap := costOfSeq_le admitted.2
      unfold sequence Outcome.andThen
      refine Ends.bind (head.mono ?_ fun _ _ made => made) ?_
      · cases led <;> simp only [Expr.costOfSeq, if_true, Bool.false_eq_true, if_false] <;> omega
      · rintro items r ⟨built, opens⟩
        have rest := (ih (ready.next built) admitted.2 false
          (absurd · Bool.false_ne_true)).behind ready built
        refine Ends.after (rest.mono ?_ fun _ _ made => made) items ?_
        · have less := ready.budget_le built
          cases led with
          | false =>
              simp only [Expr.costOfSeq, Bool.false_eq_true, if_false]
              omega
          | true =>
              have room := ready.budget_lt built (opens (first (hot rfl))).moved
              omega
        · rintro more q ⟨later, _⟩
          refine ⟨built.append later, fun starts => ?_⟩
          exact (opens (first starts)).append ((ready.next built).passed later).prevEnd

omit works in
theorem Ready.speculating : Ready { c with speculating := true } o s := by
  obtain ⟨law, ⟨frames, stands⟩, fit⟩ := ready
  exact ⟨law, ⟨frames, stands.speculating⟩, fit⟩

omit works ready in
theorem State.canStart_speculating (s : State) (trial : Bool) (e : Expr) :
    s.canStart { c with speculating := trial } e = s.canStart c e :=
  have like : LooksLike c s { c with speculating := trial } s :=
    ⟨rfl, rfl, fun _ => rfl, rfl, rfl⟩
  like.canStart e

omit ready in
theorem attempt_ends {alts : List Expr} (ready : Ready c o s) (calm : c.speculating = false)
    (admitted : c.table.admitsTrials o alts = true) (field : String) :
    Ends c s fuel
      (s.budget c o +
        max (Expr.costOfAlts o.rank true alts) (Expr.costOfAlts o.rank false alts))
      (fun items r => Built c s items r) (attempt runner c field alts s) := by
  induction alts generalizing s with
  | nil => simp [Table.admitsTrials] at admitted
  | cons alt rest ih =>
      cases rest with
      | nil =>
          rw [Table.admitsTrials, ← calm] at admitted
          have last := expr_ends works ready admitted field false
            (absurd · Bool.false_ne_true)
          rw [attempt]
          refine last.mono ?_ fun _ _ made => made.1
          simp only [Expr.costOfAlts]
          omega
      | cons next rest =>
          rw [Table.admitsTrials, Bool.and_eq_true, Bool.and_eq_true, Bool.and_eq_true] at admitted
          obtain ⟨⟨⟨leads, _⟩, trial⟩, others⟩ := admitted
          have skipped (q : State) (built : Built c s [] q) :
              Ends c s fuel
                (s.budget c o + max (Expr.costOfAlts o.rank true (alt :: next :: rest))
                  (Expr.costOfAlts o.rank false (alt :: next :: rest)))
                (fun items r => Built c s items r) (attempt runner c field (next :: rest) q) := by
            have less := ready.budget_le built
            refine ((ih (ready.next built) others).behind ready built).mono ?_ ?_
            · simp only [Expr.costOfAlts]
              omega
            · exact fun items r made => built.append made
          rw [attempt]
          · split
            next starts =>
              have run := @expr_ends { c with speculating := true } o s runner fuel works
                (Ready.speculating ready) alt trial field true
                fun _ => ⟨leads, (State.canStart_speculating s true alt).trans starts⟩
              generalize runner { c with speculating := true } (.expr alt field) s = outcome at run
              cases outcome with
              | done items r => exact run.1.of_speculating
              | failed stuck =>
                  obtain ⟨_, reach, limit, reuse⟩ := run
                  exact skipped _ (.idle (.rewind reach reuse) limit)
              | halted v =>
                  refine Nat.lt_of_lt_of_le run ?_
                  simp only [Expr.costOfAlts, State.budget]
                  omega
            next => exact skipped s ready.idle
          · simp

omit works ready in
theorem admits_body {t : Table} {name : String} {r : Rule} {trial : Bool} (law : t.Lawful o)
    (admitted : t.admits o trial (.ref name) = true) (found : t.rule? name = some r) :
    t.admitsRule o r = true ∧ t.admits o trial r.body = true := by
  simp only [Table.admits, Bool.and_eq_true, Bool.not_eq_true', Bool.or_eq_true] at admitted
  have rule := law.rules found admitted.1.2
  refine ⟨rule, ?_⟩
  simp only [Table.admitsRule, Bool.and_eq_true, Bool.or_eq_true, Bool.not_eq_true'] at rule
  rcases admitted.2 with calm | inner
  · rw [calm]
    exact rule.1.2
  · rw [← (Table.rule?_eq_some found).2] at inner
    rcases rule.2 with outer | body
    · rw [outer] at inner
      contradiction
    · cases trial
      · exact rule.1.2
      · exact body

omit works ready in
theorem body_starts {name : String} {rule : Rule} (admitted : c.table.admitsRule o rule = true)
    (found : c.table.rule? name = some rule) (starts : s.canStart c (.ref name) = true) :
    rule.body.leads c.table.nullables = true ∧ s.canStart c rule.body = true := by
  simp only [Table.admitsRule, Bool.and_eq_true, beq_iff_eq] at admitted
  obtain ⟨⟨⟨⟨⟨⟨⟨_, leads⟩, plain⟩, _⟩, _⟩, first⟩, _⟩, _⟩ := admitted
  refine ⟨leads, State.canStart_of_among rule.body leads plain ?_⟩
  rw [← first, (Table.rule?_eq_some found).2]
  exact starts

theorem reference_ends {name : String} (field : String)
    (admitted : c.table.admits o c.speculating (.ref name) = true) :
    Ends c s fuel (s.budget c o + o.rank name)
      (fun items r => Built c s items r ∧ (s.canStart c (.ref name) = true → Opens s items r))
      (reference runner c name field s) := by
  have parts := admitted
  simp only [Table.admits, Bool.and_eq_true, Bool.not_eq_true'] at parts
  obtain ⟨⟨⟨_, present⟩, required⟩, _⟩ := parts
  obtain ⟨rule, found⟩ := Option.isSome_iff_exists.mp present
  unfold reference
  by_cases starts : s.canStart c (.ref name) = true
  · rw [if_neg (by simp [starts]), found]
    obtain ⟨whole, body⟩ := admits_body ready.law admitted found
    have hot := body_starts whole found starts
    simp only [Table.admitsRule, Bool.and_eq_true, decide_eq_true_iff] at whole
    obtain ⟨⟨⟨⟨⟨⟨⟨proper, _⟩, _⟩, _⟩, cheap⟩, _⟩, _⟩, _⟩ := whole
    rw [(Table.rule?_eq_some found).2] at cheap
    have inner (field : String) := (expr_ends works ready body field true fun _ => hot).mono
      (show _ ≤ s.budget c o + o.rank name by omega) fun _ _ made => made
    simp only []
    split
    · exact (inner field).mono (Nat.le_refl _) fun _ _ made => ⟨made.1, fun _ => made.2 hot⟩
    · refine (inner "").bind ?_
      rintro children r ⟨built, opens⟩
      have opened := opens hot
      refine ⟨built.wrap opened.some (isProper_iff.mp proper).2.2.2 field, fun _ => ?_⟩
      exact
        { moved := opened.moved
          some := List.cons_ne_nil _ _
          led := fun pending => (opened.led pending).finish r rule.nodeKind field }
  · have described : (describe? c.table (.ref name)).isSome = true := by
      rw [describe?, found]
      rfl
    rw [if_pos (by simp [starts, required])]
    refine (recover_ends works ready rfl admitted described field true).mono (by omega) ?_
    exact fun items r built => ⟨built, fun other => absurd other starts⟩

/-! ### Expressions -/

theorem terminal_ends {e : Expr} {takes : Bool} {field kind : String} {named : Bool}
    (leads : e.leads c.table.nullables = true)
    (admitted : c.table.admits o c.speculating e = true)
    (described : (describe? c.table e).isSome = true) (proper : kind ≠ missingKind)
    (more : takes = true → s.token.isEnd = false)
    (expected : s.canStart c e = true → takes = true) :
    Ends c s fuel (s.budget c o)
      (fun items r => Built c s items r ∧ (s.canStart c e = true → Opens s items r))
      (if takes then .done (s.consume c field kind named).1 (s.consume c field kind named).2
      else recover runner c e field true s) := by
  split
  next taken =>
    obtain ⟨built, moved, _⟩ := ready.consume (more taken) field proper named
    refine ⟨built, fun _ => ⟨moved, ?_, ?_⟩⟩
    · simp
    · intro none
      rw [State.consume_fst, none]
      exact ⟨_, [], rfl, rfl⟩
  next other =>
    refine (recover_ends works ready leads admitted described field true).mono (Nat.le_refl _) ?_
    exact fun items r built => ⟨built, fun starts => absurd (expected starts) other⟩

omit works ready in
theorem isEnd_of_symbol {sym : String} (symbol : s.token.symbol = sym) (proper : isProper sym = true) :
    s.token.isEnd = false := by
  apply Bool.eq_false_iff.mpr
  intro ended
  rw [State.symbol_of_isEnd ended] at symbol
  exact (isProper_iff.mp proper).1 symbol.symm

omit works ready in
theorem tok_taken (classed : s.terminal = c.table.termId? s.token.symbol) {sym : String}
    {words : List String} (proper : isProper sym = true)
    (starts : s.canStart c (.tok sym words) = true) :
    (!s.token.isEnd && s.token.symbol == sym && s.accepts c words) = true := by
  rw [State.canStart, Bool.and_eq_true] at starts
  have symbol := State.symbol_of_among classed starts.1
  rw [isEnd_of_symbol symbol proper, symbol, starts.2]
  simp

omit works ready in
theorem leaf_taken (classed : s.terminal = c.table.termId? s.token.symbol) {kind sym : String}
    (proper : isProper sym = true) (starts : s.canStart c (.leaf kind sym) = true) :
    (!s.token.isEnd && s.token.symbol == sym) = true := by
  have symbol := State.symbol_of_among classed
    (State.among_of_canStart (.leaf kind sym) starts)
  rw [isEnd_of_symbol symbol proper, symbol]
  simp

theorem tok_ends {sym : String} {words : List String} (field : String)
    (admitted : c.table.admits o c.speculating (.tok sym words) = true) :
    Ends c s fuel (s.budget c o)
      (fun items r => Built c s items r ∧
        (s.canStart c (.tok sym words) = true → Opens s items r))
      (expression runner c field (.tok sym words) s) := by
  obtain ⟨frames, stands⟩ := ready.stands
  have proper := admitted
  simp only [Table.admits, Bool.and_eq_true] at proper
  refine terminal_ends works ready rfl admitted rfl (isProper_iff.mp proper.2).2.2.2 ?_ ?_
  · intro takes
    rw [Bool.and_eq_true, Bool.and_eq_true, Bool.not_eq_true'] at takes
    exact takes.1.1
  · exact tok_taken stands.reached.terminal proper.2

theorem leaf_ends {kind sym : String} (field : String)
    (admitted : c.table.admits o c.speculating (.leaf kind sym) = true) :
    Ends c s fuel (s.budget c o)
      (fun items r => Built c s items r ∧
        (s.canStart c (.leaf kind sym) = true → Opens s items r))
      (expression runner c field (.leaf kind sym) s) := by
  obtain ⟨frames, stands⟩ := ready.stands
  have proper := admitted
  simp only [Table.admits, Bool.and_eq_true] at proper
  refine terminal_ends works ready rfl admitted rfl (isProper_iff.mp proper.1.2).2.2.2 ?_ ?_
  · intro takes
    rw [Bool.and_eq_true, Bool.not_eq_true'] at takes
    exact takes.1
  · exact leaf_taken stands.reached.terminal proper.2

omit works ready in
theorem of_mem_alts {t : Table} {trial : Bool} {alts : List Expr} {alt : Expr}
    (leads : Expr.leadsAll t.nullables alts = true) (admitted : t.admitsAll o trial alts = true)
    (member : alt ∈ alts) :
    alt.leads t.nullables = true ∧ t.admits o trial alt = true ∧
      alt.cost o.rank true ≤ Expr.costOfAlts o.rank true alts := by
  induction alts with
  | nil => contradiction
  | cons e es ih =>
      rw [Expr.leadsAll, Bool.and_eq_true] at leads
      rw [Table.admitsAll, Bool.and_eq_true] at admitted
      rw [Expr.costOfAlts]
      rcases List.mem_cons.mp member with rfl | later
      · exact ⟨leads.1, admitted.1, Nat.le_max_left _ _⟩
      · obtain ⟨lead, inner, cheap⟩ := ih leads.2 admitted.2 later
        exact ⟨lead, inner, Nat.le_trans cheap (Nat.le_max_right _ _)⟩

theorem choice_ends {alts : List Expr} (field : String)
    (admitted : c.table.admits o c.speculating (.choice alts) = true) :
    Ends c s fuel (s.budget c o + Expr.costOfAlts o.rank true alts)
      (fun items r => Built c s items r ∧ (s.canStart c (.choice alts) = true → Opens s items r))
      (expression runner c field (.choice alts) s) := by
  have parts := admitted
  simp only [Table.admits, Bool.and_eq_true] at parts
  obtain ⟨⟨⟨_, described⟩, leads⟩, all⟩ := parts
  simp only [expression]
  split
  next alt found =>
    have starts := List.find?_some found
    obtain ⟨lead, inner, cheap⟩ := of_mem_alts leads all (List.mem_of_find?_eq_some found)
    refine (expr_ends works ready inner field true fun _ => ⟨lead, starts⟩).mono (by omega) ?_
    exact fun items r made => ⟨made.1, fun _ => made.2 ⟨lead, starts⟩⟩
  next none =>
    have lead : (Expr.choice alts).leads c.table.nullables = true := by
      rw [Expr.leads]
      exact leads
    refine (recover_ends works ready lead admitted described field true).mono (by omega) ?_
    refine fun items r built => ⟨built, fun starts => ?_⟩
    rw [State.canStart] at starts
    obtain ⟨alt, member, other⟩ := State.anyCanStart_eq_true.mp starts
    exact absurd other (List.find?_eq_none.mp none alt member)

theorem guarded_ends {e body : Expr} (field : String)
    (admitted : c.table.admits o c.speculating body = true)
    (described : (describe? c.table body).isSome = true)
    (leads : body.leads c.table.nullables = true)
    (inner : s.canStart c e = true → s.canStart c body = true) :
    Ends c s fuel (s.budget c o + body.cost o.rank true)
      (fun items r => Built c s items r ∧ (s.canStart c e = true → Opens s items r))
      (if s.canStart c e then runner c (.expr body field) s
      else recover runner c body field false s) := by
  split
  next starts =>
    have hot := And.intro leads (inner starts)
    refine (expr_ends works ready admitted field true fun _ => hot).mono (Nat.le_refl _) ?_
    exact fun items r made => ⟨made.1, fun _ => made.2 hot⟩
  next other =>
    refine (recover_ends works ready leads admitted described field false).mono (by omega) ?_
    exact fun items r built => ⟨built, fun starts => absurd starts other⟩

theorem suffixed_ends {head : Expr} {many : Bool} {suffixes : List (Suffix Expr)} (field : String)
    (admitted : c.table.admits o c.speculating (.suffixed head many suffixes) = true) (led : Bool)
    (hot : led = true → head.leads c.table.nullables = true ∧ s.canStart c head = true) :
    Ends c s fuel
      (s.budget c o + max (head.cost o.rank led) (Expr.costOfTails o.rank suffixes) + 1)
      (fun items r => Built c s items r ∧
        (head.leads c.table.nullables = true ∧ s.canStart c head = true → Opens s items r))
      (expression runner c field (.suffixed head many suffixes) s) := by
  have parts := admitted
  simp only [Table.admits, Bool.and_eq_true] at parts
  refine Ends.bind
    ((expr_ends works ready parts.1.2 "" led hot).mono (by omega) fun _ _ made => made) ?_
  rintro built r ⟨made, opens⟩
  have less := ready.budget_le made
  have rest := works (.suffixes many suffixes "" built field) (ready.next made)
    ⟨⟨head, admitted⟩, fun some => absurd rfl some⟩ false
    (absurd · Bool.false_ne_true)
  refine (rest.behind ready made).mono ?_ ?_
  · simp only [Task.cost]
    omega
  · rintro items q ⟨grows, _⟩
    exact ⟨grows.history s made, fun starts => (opens starts).grows grows⟩

omit works ready in
/-- What starts with an operator or an operand and not with an operator. -/
theorem operand_starts (classed : s.terminal = c.table.termId? s.token.symbol)
    (spells : s.token.kind.Spells s.token.lit) {kind : String} {ops : List String} {operand : Expr}
    (marks : ops.all isMark = true)
    (other : ¬ (s.token.kind == .punctuation && ops.contains s.token.lit) = true)
    (leads : operand.leads c.table.nullables = true) (plain : operand.plain = true)
    (starts : s.canStart c (.unary kind ops operand) = true) : s.canStart c operand = true := by
  have among := State.among_of_canStart _ starts
  rw [Table.first_unary, State.among_foldr, Bool.or_eq_true] at among
  rcases among with operator | operand
  · obtain ⟨op, member, among⟩ := List.any_eq_true.mp operator
    have symbol := State.symbol_of_among classed among
    have mark : isMark s.token.symbol = true := symbol ▸ List.all_eq_true.mp marks op member
    obtain ⟨punctuation, lit⟩ := Token.mark_of_spells spells mark
    refine absurd ?_ other
    rw [punctuation, lit, symbol, List.contains_iff_mem.mpr member]
    rfl
  · exact State.canStart_of_among _ leads plain operand

theorem unary_ends {kind : String} {ops : List String} {operand : Expr} (field : String)
    (admitted : c.table.admits o c.speculating (.unary kind ops operand) = true) (led : Bool)
    (hot : led = true → operand.leads c.table.nullables = true ∧ operand.plain = true ∧
      s.canStart c (.unary kind ops operand) = true) :
    Ends c s fuel (s.budget c o + operand.cost o.rank led)
      (fun items r => Built c s items r ∧
        (operand.leads c.table.nullables = true ∧ operand.plain = true ∧
          s.canStart c (.unary kind ops operand) = true → Opens s items r))
      (expression runner c field (.unary kind ops operand) s) := by
  obtain ⟨frames, stands⟩ := ready.stands
  have parts := admitted
  simp only [Table.admits, Bool.and_eq_true] at parts
  obtain ⟨⟨⟨_, proper⟩, marks⟩, inner⟩ := parts
  have notMissing := (isProper_iff.mp proper).2.2.2
  simp only [expression]
  split
  next operator =>
    rw [Bool.and_eq_true, beq_iff_eq] at operator
    have more : s.token.isEnd = false := by
      rw [Token.isEnd, operator.1]
      rfl
    have symbol : s.token.symbol = s.token.lit := by rw [Token.symbol, operator.1]
    obtain ⟨built, moved, _⟩ := ready.consume more "operator"
      (symbol ▸ stands.reached.symbol_ne_missing) false
    have cheap := affords_of_admits admitted false
    have room := ready.budget_lt built moved
    have rest := expr_ends works (ready.next built) admitted "operand" false
      (absurd · Bool.false_ne_true)
    refine Ends.bind ((rest.behind ready built).mono (by omega) fun _ _ made => made) ?_
    rintro more r ⟨later, _⟩
    have all := built.append later
    have some : (s.consume c "operator" s.token.lit false).1 ++ more ≠ [] := by simp
    refine ⟨all.wrap some notMissing field, fun _ => ⟨?_, List.cons_ne_nil _ _, ?_⟩⟩
    · exact Nat.lt_of_lt_of_le moved ((ready.next built).passed later).prevEnd
    · intro none
      rw [State.consume_fst, none]
      exact Led.finish ⟨_, more, rfl, rfl⟩ r kind field
  next other =>
    refine (expr_ends works ready inner field led fun isLed => ?_).mono (Nat.le_refl _) ?_
    · obtain ⟨leads, plain, starts⟩ := hot isLed
      exact ⟨leads, operand_starts stands.reached.terminal stands.reached.spells marks other leads
        plain starts⟩
    · rintro items r ⟨built, opens⟩
      refine ⟨built, ?_⟩
      rintro ⟨leads, plain, starts⟩
      refine opens ⟨leads, ?_⟩
      exact operand_starts stands.reached.terminal stands.reached.spells marks other leads plain
        starts

omit works ready in
theorem Ends.entered {P Q : Prop} {limit limit' : Nat} {outcome : Outcome}
    (ends : Ends c s fuel limit (fun items r => Built c s items r ∧ (P → Opens s items r)) outcome)
    (enters : Q → P) (le : limit < limit') :
    Ends c s (fuel + 1) limit' (fun items r => Built c s items r ∧ (Q → Opens s items r))
      outcome := by
  refine (ends.mono (Nat.le_refl _) ?_).deeper le
  exact fun _ _ made => ⟨made.1, fun starts => made.2 (enters starts)⟩

omit works ready in
theorem Ends.cold {Q : Prop} {limit limit' : Nat} {outcome : Outcome}
    (ends : Ends c s fuel limit (Built c s) outcome) (never : ¬Q) (le : limit < limit') :
    Ends c s (fuel + 1) limit' (fun items r => Built c s items r ∧ (Q → Opens s items r))
      outcome := by
  refine (ends.mono (Nat.le_refl _) ?_).deeper le
  exact fun _ _ built => ⟨built, fun starts => absurd starts never⟩

theorem opt_ends {body : Expr} (field : String)
    (admitted : c.table.admits o c.speculating (.opt body) = true) :
    Ends c s fuel (s.budget c o + body.cost o.rank true) (Built c s)
      (expression runner c field (.opt body) s) := by
  simp only [Table.admits, Bool.and_eq_true] at admitted
  simp only [expression]
  split
  next starts =>
    refine (expr_ends works ready admitted.2 field true fun _ => ⟨admitted.1.2, starts⟩).mono
      (Nat.le_refl _) ?_
    exact fun _ _ made => made.1
  next => exact ready.idle

theorem sepBy_ends {elem : Expr} {sep : String} {trailing : Bool} (field : String)
    (admitted : c.table.admits o c.speculating (.sepBy elem sep trailing) = true) :
    Ends c s fuel ((Task.elements elem sep trailing field).cost o.rank true + s.budget c o)
      (Built c s) (expression runner c field (.sepBy elem sep trailing) s) := by
  simp only [expression]
  split
  next starts =>
    refine (works (.elements elem sep trailing field) ready admitted true fun _ => starts).mono
      (by omega) ?_
    exact fun _ _ made => made.1
  next => exact ready.idle

theorem rep_ends {body : Expr} {min : Int} (field : String)
    (admitted : c.table.admits o c.speculating (.rep body min) = true) :
    Ends c s fuel ((Task.copies body min 0 field).cost o.rank false + s.budget c o) (Built c s)
      (expression runner c field (.rep body min) s) := by
  have ends := works (.copies body min 0 field) ready admitted false
    (absurd · Bool.false_ne_true)
  exact ends.mono (by omega) fun _ _ made => made.1

theorem stmts_ends {name : String} {item : Expr} {closers : List String} (field : String)
    (admitted : c.table.admits o c.speculating (.stmts name item closers) = true) :
    Ends c s fuel ((Task.statements name item closers).cost o.rank false + s.budget c o)
      (Built c s) (expression runner c field (.stmts name item closers) s) := by
  have ends := works (.statements name item closers) ready admitted false
    (absurd · Bool.false_ne_true)
  exact ends.mono (by omega) fun _ _ made => made.1

omit works ready in
theorem suffixed_enters {head : Expr} {many : Bool} {suffixes : List (Suffix Expr)}
    (starts : (Expr.suffixed head many suffixes).leads c.table.nullables = true ∧
      s.canStart c (.suffixed head many suffixes) = true) :
    head.leads c.table.nullables = true ∧ s.canStart c head = true := by
  rw [Expr.leads, Bool.and_eq_true] at starts
  exact ⟨starts.1.1, State.canStart_of_among head starts.1.1 starts.1.2 starts.2⟩

omit works ready in
theorem binary_enters {kind : String} {operand : Expr} {ops : List (String × UInt8)}
    (starts : (Expr.binary kind operand ops).leads c.table.nullables = true ∧
      s.canStart c (.binary kind operand ops) = true) :
    operand.leads c.table.nullables = true ∧ s.canStart c operand = true := by
  rw [Expr.leads, Bool.and_eq_true] at starts
  exact ⟨starts.1.1, State.canStart_of_among operand starts.1.1 starts.1.2 starts.2⟩

omit works ready in
theorem unary_enters {kind : String} {ops : List String} {operand : Expr}
    (starts : (Expr.unary kind ops operand).leads c.table.nullables = true ∧
      s.canStart c (.unary kind ops operand) = true) :
    operand.leads c.table.nullables = true ∧ operand.plain = true ∧
      s.canStart c (.unary kind ops operand) = true := by
  rw [Expr.leads, Bool.and_eq_true] at starts
  exact ⟨starts.1.1, starts.1.2, starts.2⟩

theorem expression_ends {e : Expr} (field : String)
    (admitted : c.table.admits o c.speculating e = true) (led : Bool)
    (hot : led = true → e.leads c.table.nullables = true ∧ s.canStart c e = true) :
    Ends c s (fuel + 1) (s.budget c o + e.cost o.rank led)
      (fun items r => Built c s items r ∧
        (e.leads c.table.nullables = true ∧ s.canStart c e = true → Opens s items r))
      (expression runner c field e s) := by
  have parts := admitted
  cases e with
  | tok sym words =>
      refine (tok_ends works ready field admitted).entered And.right ?_
      simp only [Expr.cost]
      omega
  | leaf kind sym =>
      refine (leaf_ends works ready field admitted).entered And.right ?_
      simp only [Expr.cost]
      omega
  | ref name =>
      refine (reference_ends works ready field admitted).entered And.right ?_
      simp only [Expr.cost]
      omega
  | choice alts =>
      refine (choice_ends works ready field admitted).entered And.right ?_
      simp only [Expr.cost]
      omega
  | seq items =>
      simp only [Table.admits, Bool.and_eq_true] at parts
      simp only [Expr.leads, State.canStart] at hot ⊢
      refine (sequence_ends works ready parts.2 field led hot).deeper ?_
      simp only [Expr.cost]
      omega
  | field name body =>
      simp only [Table.admits, Bool.and_eq_true] at parts
      simp only [Expr.leads, State.canStart] at hot ⊢
      refine (expr_ends works ready parts.2 name led hot).deeper ?_
      simp only [Expr.cost]
      omega
  | ordered alts =>
      simp only [Table.admits, Bool.and_eq_true, Bool.not_eq_true'] at parts
      refine (attempt_ends works ready parts.1.2 parts.2 field).cold (Bool.false_ne_true ·.1) ?_
      simp only [Expr.cost]
      omega
  | opt body =>
      refine (opt_ends works ready field admitted).cold (Bool.false_ne_true ·.1) ?_
      simp only [Expr.cost]
      omega
  | rep body min =>
      refine (rep_ends works ready field admitted).cold (Bool.false_ne_true ·.1) ?_
      simp only [Task.cost, Expr.cost]
      omega
  | sepBy elem sep trailing =>
      refine (sepBy_ends works ready field admitted).cold (Bool.false_ne_true ·.1) ?_
      simp only [Task.cost, Expr.cost]
      omega
  | stmts name item closers =>
      refine (stmts_ends works ready field admitted).cold (Bool.false_ne_true ·.1) ?_
      simp only [Task.cost, Expr.cost]
      omega
  | immediate body | sameLine body =>
      simp only [Table.admits, Bool.and_eq_true] at parts
      refine (guarded_ends works ready field parts.2 parts.1.1.2 parts.1.2 fun starts => ?_).entered
        And.right ?_
      · rw [State.canStart, Bool.and_eq_true] at starts
        exact starts.2
      · simp only [Expr.cost]
        omega
  | suffixed head many suffixes =>
      refine (suffixed_ends works ready field admitted led
        fun isLed => suffixed_enters (hot isLed)).entered suffixed_enters ?_
      simp only [Expr.cost]
      omega
  | binary kind operand ops =>
      have ends := works (.operand kind operand ops 0 field) ready admitted led
        fun isLed => binary_enters (hot isLed)
      simp only [Task.cost, Task.Makes, Task.Hot] at ends
      refine ends.entered binary_enters ?_
      simp only [Expr.cost]
      omega
  | unary kind ops operand =>
      refine (unary_ends works ready field admitted led
        fun isLed => unary_enters (hot isLed)).entered unary_enters ?_
      simp only [Expr.cost]
      omega

end

end MqTree.Parser
