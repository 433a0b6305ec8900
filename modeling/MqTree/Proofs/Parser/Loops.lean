import MqTree.Proofs.Parser.Run

namespace MqTree.Parser

variable {c : Context} {o : Outline} {s r : State} {items : List Item} {runner : Runner}
  {fuel : Nat}

section

variable (works : AllWork o fuel runner) (ready : Ready c o s)

include works ready

theorem copies_ends {body : Expr} {min : Int} {count : Nat} {field : String}
    (admitted : c.table.admits o c.speculating (.rep body min) = true) :
    Ends c s (fuel + 1) (s.budget c o + (1 + (min - count).toNat + body.cost o.rank true))
      (fun items r => Built c s items r) (copies runner c body min count field s) := by
  have cheap := affords_of_admits admitted true
  have parts := admitted
  simp only [Table.admits, Bool.and_eq_true] at parts
  obtain ⟨⟨⟨_, described⟩, leads⟩, inner⟩ := parts
  simp only [Expr.cost] at cheap
  -- More copies behind some items: they cost less, or are reached behind a token.
  have again {limit : Nat} {items : List Item} {r : State} (built : Built c s items r)
      (room : r.budget c o + (1 + (min - ((count + 1 : Nat) : Int)).toNat + body.cost o.rank true) ≤
        limit) :
      Ends c s fuel limit (fun items r => Built c s items r)
        ((runner c (.copies body min (count + 1) field) r).after items) := by
    have rest := works (.copies body min (count + 1) field) (ready.next built) admitted
      false (absurd · Bool.false_ne_true)
    refine Ends.after (rest.behind ready built |>.mono room fun _ _ made => made) items ?_
    exact fun more q made => built.append made.1
  unfold copies Outcome.andThen
  split
  next starts =>
    have hot := And.intro leads starts
    have first := (expr_ends works ready inner field true fun _ => hot).mono
      (show _ ≤ s.budget c o + ((min - count).toNat + body.cost o.rank true) by omega)
      fun _ _ made => made
    refine (first.bind ?_).deeper (by omega)
    rintro items r ⟨built, opens⟩
    have room := ready.budget_lt built (opens hot).moved
    exact again built (by omega)
  next =>
    split
    · exact ready.idle
    next few =>
      have first := (recover_ends works ready leads inner described field true).mono
        (show _ ≤ s.budget c o + ((min - count).toNat + body.cost o.rank true) by omega)
        fun _ _ made => made
      refine (first.bind ?_).deeper (by omega)
      intro items r built
      have room := ready.budget_le built
      exact again built (by omega)

theorem elements_ends {elem : Expr} {sep : String} {trailing : Bool} {field : String} {led : Bool}
    (admitted : c.table.admits o c.speculating (.sepBy elem sep trailing) = true)
    (hot : led = true → s.canStart c elem = true) :
    Ends c s (fuel + 1) (s.budget c o + (1 + elem.cost o.rank led))
      (fun items r => Built c s items r ∧ (s.canStart c elem = true → Opens s items r))
      (elements runner c elem sep trailing field s) := by
  have parts := admitted
  simp only [Table.admits, Bool.and_eq_true, bne_iff_ne] at parts
  obtain ⟨⟨⟨⟨_, proper⟩, described⟩, leads⟩, inner⟩ := parts
  have cheap := affords_of_admits admitted true
  simp only [Expr.cost] at cheap
  have first := expr_ends works ready inner field led fun isLed => ⟨leads, hot isLed⟩
  unfold elements Outcome.andThen
  refine (first.bind ?_).deeper (by omega)
  rintro items r ⟨built, opens⟩
  have less := ready.budget_le built
  have ready' := ready.next built
  obtain ⟨frames, stands⟩ := ready'.stands
  have whole {rest : List Item} {q : State} (later : Built c r rest q) :
      Built c s (items ++ rest) q ∧ (s.canStart c elem = true → Opens s (items ++ rest) q) :=
    ⟨built.append later, fun starts =>
      (opens ⟨leads, starts⟩).append (ready'.passed later).prevEnd⟩
  refine (show Ends c s fuel _ (fun rest q => Built c r rest q) _ from ?_).after items
    fun rest q later => whole later
  simp only []
  split
  · exact ready'.idle
  next same =>
    have symbol : r.token.symbol = sep := by simpa using same
    have more : r.token.isEnd = false := by
      apply Bool.eq_false_iff.mpr
      intro ended
      exact proper (symbol ▸ State.symbol_of_isEnd ended)
    obtain ⟨taken, moved, _⟩ := ready'.consume more "" (symbol ▸ stands.reached.symbol_ne_missing)
      false
    have room := ready'.budget_lt taken moved
    have ready'' := ready'.next taken
    refine (show Ends c s fuel _ (fun rest q => Built c (r.moved c) rest q) _ from ?_).after _
      fun rest q later => taken.append later
    show Ends c s fuel _ _
      (if (r.moved c).canStart c elem then runner c (.elements elem sep trailing field) (r.moved c)
      else if trailing then .done [] (r.moved c)
      else recover runner c elem field false (r.moved c))
    apply Ends.behind ready built
    apply Ends.behind ready' taken
    by_cases starts : (r.moved c).canStart c elem = true
    · rw [if_pos starts]
      have rest := works (.elements elem sep trailing field) ready'' admitted true
        fun _ => starts
      simp only [Task.cost, Task.Makes] at rest
      exact rest.mono (by omega) fun _ _ made => made.1
    · rw [if_neg starts]
      cases trailing with
      | true => exact ready''.idle
      | false =>
          exact (recover_ends works ready'' leads inner described field false).mono (by omega)
            fun _ _ made => made

omit works ready in
theorem consumeUntil_built {stop : State → Bool} (n : Nat)
    (stops : ∀ q, stop q = false → q.token.isEnd = false) (ready : Ready c o s) :
    Built c s (consumeUntil c stop n s).1 (consumeUntil c stop n s).2 := by
  induction n generalizing s with
  | zero => exact ready.idle
  | succ n ih =>
      rw [consumeUntil]
      split
      · exact ready.idle
      next going =>
        obtain ⟨taken, _, _⟩ := ready.consumeAny (stops s (Bool.eq_false_iff.mpr going))
        exact Built.append taken (ih (ready.next taken))

omit works ready in
theorem isEnd_of_resumes {item : Expr} {closers : List String} (q : State)
    (going : resumes c item closers q = false) : q.token.isEnd = false := by
  rw [resumes, Bool.or_eq_false_iff, Bool.or_eq_false_iff, Bool.or_eq_false_iff, State.atListEnd,
    Bool.or_eq_false_iff] at going
  exact going.1.1.1.1

omit works in
theorem skipStatement_built {item : Expr} {closers : List String} (more : s.token.isEnd = false)
    (none : s.pending = []) :
    Built c s [(skipStatement c item closers s).1] (skipStatement c item closers s).2 ∧
      s.token.start < (skipStatement c item closers s).2.prevEnd ∧
      Led s.token.start [(skipStatement c item closers s).1] := by
  obtain ⟨first, moved, _⟩ := ready.consumeAny more
  have ready' := ready.next first
  have rest := consumeUntil_built c.src.size (@isEnd_of_resumes c item closers) ready'
  have all := first.append rest
  have token : Led s.token.start (s.consumeAny c).1 := by
    rw [State.consumeAny, State.consume_fst, none]
    exact ⟨_, [], rfl, rfl⟩
  have led := token.append (consumeUntil c (resumes c item closers) c.src.size (s.moved c)).1
  have error := all.wrap led.ne_nil (show errorKind ≠ missingKind by decide) ""
  have logged := error.append ((ready.next error).log
    (.unexpected ((s.consumeAny c).1 ++
      (consumeUntil c (resumes c item closers) c.src.size (s.moved c)).1).length
      (consumeUntil c (resumes c item closers) c.src.size (s.moved c)).2.token))
  rw [List.append_nil] at logged
  exact ⟨logged, Nat.lt_of_lt_of_le moved (ready'.passed rest).prevEnd, led.finish _ _ _⟩

omit works ready in
theorem markStatement_built {item : Expr} {field : String} {n : Nat}
    (calm : c.speculating = false) (whole : c.Statement item) (starts : s.canStart c item = true)
    (ran : run n c (.expr item field) s = .done items r) (none : s.pending = [])
    (built : Built c s items r) (opens : Opens s items r) :
    Built c s (markStatement s r items) r ∧ Led s.token.start (markStatement s r items) := by
  have led := opens.led none
  unfold markStatement
  split
  next it =>
    obtain ⟨first, rest, made, here⟩ := led
    obtain ⟨rfl, rfl⟩ := List.cons.inj made
    split
    next base =>
      rw [Bool.and_eq_true] at base
      exact ⟨.statement
        ⟨calm, ⟨item, field, n, whole, starts, ran⟩, none, base.1, base.2, here, opens.moved⟩ built,
        ⟨_, [], rfl, here⟩⟩
    next => exact ⟨built, ⟨_, [], rfl, here⟩⟩
  next => exact ⟨built, led⟩

omit works ready in
theorem isStatement_eq {item : Expr} (statement : o.isStatement item = true) :
    item = .ref o.statement := by
  unfold Outline.isStatement at statement
  split at statement
  · rw [beq_iff_eq.mp statement]
  · contradiction

omit works ready in
theorem leads_of_isStatement {item : Expr} (statement : o.isStatement item = true) :
    item.leads c.table.nullables = true := by
  rw [isStatement_eq statement]
  rfl

omit works ready in
theorem statement_of_isStatement {item : Expr} (law : c.table.Lawful o)
    (statement : o.isStatement item = true) : c.Statement item := by
  obtain ⟨rule, found, _, body, _⟩ := law.start
  rw [isStatement_eq statement]
  exact ⟨rule, found, body⟩

theorem statements_ends {field : String} {item : Expr} {closers : List String} {n : Nat}
    (real : runner = run n)
    (admitted : c.table.admits o c.speculating (.stmts field item closers) = true) :
    Ends c s (fuel + 1) (s.budget c o + (1 + item.cost o.rank true))
      (fun items r => Built c s items r) (statements runner c field item closers s) := by
  obtain ⟨frames, stands⟩ := ready.stands
  have cheap := affords_of_admits admitted true
  have parts := admitted
  simp only [Table.admits, Bool.and_eq_true, Bool.not_eq_true'] at parts
  obtain ⟨⟨⟨_, calm⟩, statement⟩, inner⟩ := parts
  have whole : c.Statement item := statement_of_isStatement ready.law statement
  simp only [Expr.cost] at cheap
  unfold statements
  split
  · exact ready.idle
  next going =>
    have more : s.token.isEnd = false := by
      apply Bool.eq_false_iff.mpr
      intro ended
      exact going (by rw [State.atListEnd, ended, Bool.true_or])
    have ready' : Ready c o { s with pending := [] } :=
      ⟨ready.law, ⟨frames, stands.flush⟩, ready.fit⟩
    -- The list goes on behind a first item that took the token.
    have goesOn {first : List Item} {r : State}
        (built : Built c { s with pending := [] } first r) (moved : s.token.start < r.prevEnd)
        (led : Led s.token.start first) :
        Ends c s fuel (s.budget c o + item.cost o.rank true)
          (fun items q => Built c { s with pending := [] } items q ∧
            s.token.start < q.prevEnd ∧ Led s.token.start items)
          ((runner c (.statements field item closers) r).after first) := by
      have room : r.budget c o + o.bound ≤ s.budget c o := ready'.budget_lt built moved
      have rest := works (.statements field item closers) (ready'.next built) admitted false
        (absurd · Bool.false_ne_true)
      simp only [Task.cost] at rest
      refine ((rest.behind ready' built).unflush.mono (by omega) fun _ _ made => made).after first ?_
      exact fun more q made => ⟨built.append made.1, Nat.lt_of_lt_of_le moved
        ((ready'.next built).passed made.1).prevEnd, led.append more⟩
    refine ((show Ends c s fuel (s.budget c o + item.cost o.rank true)
        (fun items q => Built c { s with pending := [] } items q ∧
          s.token.start < q.prevEnd ∧ Led s.token.start items) _ from ?_).after s.pending
      fun rest q made => .flush made.2.2 made.2.1 made.1).deeper (by omega)
    split
    next v offered =>
      obtain ⟨_, _, _, _, _, _, found⟩ := ready'.adopts offered
      cases found
    next taken next offered =>
      obtain ⟨_, base, sub, rest, present, fits, found⟩ := ready'.adopts offered
      obtain ⟨rfl, rfl⟩ := Prod.mk.inj (Except.ok.inj found)
      have built : Built c { s with pending := [] } _ _ :=
        .reuse calm base rfl present fits field
      have ends := (stands.flush.behind rfl rest fits).2.1
      have positive := fits.positive
      refine goesOn built ?_ ⟨_, [], rfl, rfl⟩
      simp only [] at ends
      omega
    next offered =>
      split
      next starts =>
        have hot := And.intro (leads_of_isStatement (c := c) statement) starts
        have first := (expr_ends works ready' inner field true fun _ => hot).unflush
        refine Ends.bind_eq first ?_
        rintro items r ran ⟨built, opens⟩
        rw [real] at ran
        obtain ⟨marked, led⟩ := markStatement_built calm whole starts ran rfl built (opens hot)
        exact goesOn marked (opens hot).moved led
      next =>
        rw [calm]
        obtain ⟨built, moved, led⟩ :=
          @skipStatement_built c o { s with pending := [] } ready' item closers more rfl
        exact goesOn built moved led

omit works ready in
theorem of_mem_tails {t : Table} {trial : Bool} {all : List (Suffix Expr)} {x : Suffix Expr}
    (admitted : t.admitsTails o trial all = true) (member : x ∈ all) :
    isProper x.kind = true ∧ x.tail.leads t.nullables = true ∧ t.admits o trial x.tail = true ∧
      x.tail.cost o.rank true ≤ Expr.costOfTails o.rank all ∧ x.kind ≠ "" := by
  induction all with
  | nil => contradiction
  | cons y rest ih =>
      obtain ⟨kind, headField, tail⟩ := y
      rw [Table.admitsTails, Bool.and_eq_true, Bool.and_eq_true, Bool.and_eq_true, Bool.and_eq_true,
        bne_iff_ne] at admitted
      obtain ⟨⟨⟨⟨some, proper⟩, leads⟩, inner⟩, others⟩ := admitted
      rw [Expr.costOfTails]
      rcases List.mem_cons.mp member with rfl | later
      · exact ⟨proper, leads, inner, Nat.le_max_left _ _, some⟩
      · obtain ⟨proper, leads, inner, cheap, some⟩ := ih others later
        exact ⟨proper, leads, inner, Nat.le_trans cheap (Nat.le_max_right _ _), some⟩

omit works in
theorem Grows.refl (built : List Item) : Grows c s built built s := by
  obtain ⟨frames, stands⟩ := ready.stands
  exact ⟨.of_stays stands (.refl s), fun _ history => history, id, fun _ led => led⟩

omit works ready in
theorem Grows.trans {built more last : List Item} {q : State} (first : Grows c s built more r)
    (second : Grows c r more last q) : Grows c s built last q :=
  ⟨first.passed.trans second.passed, fun q history => second.history q (first.history q history),
    second.some ∘ first.some, fun start led => second.led start (first.led start led)⟩

omit works in
theorem Grows.append {more : List Item} (built : List Item) (later : Built c s more r) :
    Grows c s built (built ++ more) r :=
  ⟨ready.passed later, fun _ history => history.append later,
    fun some none => some (List.append_eq_nil_iff.mp none).1, fun _ led => led.append more⟩

omit works ready in
theorem withField_ne_nil {built : List Item} (field : String) (some : built ≠ []) :
    withField field built ≠ [] := by
  unfold withField
  split
  · exact some
  · simpa using some

omit works ready in
theorem Grows.relabel {built more : List Item} (grows : Grows c s built more r) (field : String) :
    Grows c s built (withField field more) r :=
  ⟨grows.passed, fun q history => (grows.history q history).relabel field,
    fun some => withField_ne_nil field (grows.some some),
    fun start led => (grows.led start led).withField field⟩

omit works ready in
theorem Grows.close {built more : List Item} {kind : String} (grows : Grows c s built more r)
    (closable : kind ≠ "" → more ≠ [] ∧ isProper kind = true) :
    Grows c s built (closeSuffixes r kind more) r := by
  unfold closeSuffixes
  split
  · exact grows
  next named =>
    obtain ⟨some, proper⟩ := closable named
    exact ⟨grows.passed,
      fun q history => (grows.history q history).wrap some (isProper_iff.mp proper).2.2.2 "",
      fun _ => List.cons_ne_nil _ _, fun start led => (grows.led start led).finish r kind ""⟩

theorem suffixes_ends {many : Bool} {all : List (Suffix Expr)} {kind : String}
    {built : List Item} {field : String} {head : Expr}
    (admitted : c.table.admits o c.speculating (.suffixed head many all) = true)
    (closable : kind ≠ "" → built ≠ [] ∧ isProper kind = true) :
    Ends c s (fuel + 1) (s.budget c o + (1 + Expr.costOfTails o.rank all))
      (fun items r => Grows c s built items r)
      (suffixes runner c many all kind built field s) := by
  have bound := affords_of_admits admitted true
  have parts := admitted
  simp only [Table.admits, Bool.and_eq_true] at parts
  simp only [Expr.cost] at bound
  unfold suffixes
  split
  next => exact ((Grows.refl ready built).close closable).relabel field
  next x found =>
    have starts := List.find?_some found
    obtain ⟨proper, leads, inner, cheap, _⟩ :=
      of_mem_tails parts.2 (List.mem_of_find?_eq_some found)
    have hot := And.intro leads starts
    have first := (expr_ends works ready inner "" true fun _ => hot).mono
      (show _ ≤ s.budget c o + Expr.costOfTails o.rank all by omega) fun _ _ made => made
    -- What the new node starts with: the node so far, or that with its field.
    have start : Grows c s built
        (if kind = x.kind && kind != "" then built
        else withField x.headField (closeSuffixes s kind built)) s := by
      split
      · exact .refl ready built
      · exact ((Grows.refl ready built).close closable).relabel x.headField
    refine (first.bind ?_).deeper (by omega)
    rintro more r ⟨later, opens⟩
    have opened := opens hot
    have grown := start.trans (.append ready _ later)
    have nonempty (front : List Item) : front ++ more ≠ [] :=
      fun none => opened.some (List.append_eq_nil_iff.mp none).2
    have room := ready.budget_lt later opened.moved
    split
    · have rest := works
        (.suffixes many all x.kind
          ((if kind = x.kind && kind != "" then built
            else withField x.headField (closeSuffixes s kind built)) ++ more) field)
        (ready.next later)
        ⟨⟨head, admitted⟩, fun _ => ⟨nonempty _, proper⟩⟩ false
        (absurd · Bool.false_ne_true)
      simp only [Task.cost] at rest
      refine (rest.behind ready later).mono (by omega) ?_
      exact fun items q made => grown.trans made.1
    · exact (grown.close fun _ => ⟨nonempty _, proper⟩).relabel field

theorem operand_ends {kind : String} {operand : Expr} {ops : List (String × UInt8)}
    {least : UInt8} {field : String} {led : Bool}
    (admitted : c.table.admits o c.speculating (.binary kind operand ops) = true)
    (hot : led = true → operand.leads c.table.nullables = true ∧ s.canStart c operand = true) :
    Ends c s (fuel + 1) (s.budget c o + (2 + operand.cost o.rank led))
      (fun items r => Built c s items r ∧
        (operand.leads c.table.nullables = true ∧ s.canStart c operand = true → Opens s items r))
      (step runner c (.operand kind operand ops least field) s) := by
  have parts := admitted
  simp only [Table.admits, Bool.and_eq_true] at parts
  have first := (expr_ends works ready parts.2 "" led hot).mono
    (show _ ≤ s.budget c o + (1 + operand.cost o.rank led) by omega) fun _ _ made => made
  refine (first.bind ?_).deeper (by omega)
  rintro left r ⟨built, opens⟩
  have less := ready.budget_le built
  have rest := works (.operators kind operand ops least left field) (ready.next built) admitted
    false (absurd · Bool.false_ne_true)
  simp only [Task.cost] at rest
  refine (rest.behind ready built).mono (by omega) ?_
  rintro items q ⟨grows, _⟩
  exact ⟨grows.history s built, fun starts => (opens starts).grows grows⟩

theorem operators_ends {kind : String} {operand : Expr} {ops : List (String × UInt8)}
    {least : UInt8} {left : List Item} {field : String}
    (admitted : c.table.admits o c.speculating (.binary kind operand ops) = true) :
    Ends c s (fuel + 1) (s.budget c o + 1) (fun items r => Grows c s left items r)
      (operators runner c kind operand ops least left field s) := by
  obtain ⟨frames, stands⟩ := ready.stands
  have bound := affords_of_admits admitted false
  have parts := admitted
  simp only [Table.admits, Bool.and_eq_true] at parts
  simp only [Expr.cost] at bound
  unfold operators
  split
  next => exact (Grows.refl ready left).relabel field
  next power found =>
    split
    · exact (Grows.refl ready left).relabel field
    · have punctuation : s.token.kind = .punctuation := by
        unfold power? at found
        split at found
        next isMark => exact beq_iff_eq.mp isMark
        next => contradiction
      have more : s.token.isEnd = false := by
        rw [Token.isEnd, punctuation]
        rfl
      obtain ⟨taken, moved, _⟩ := ready.consume more "operator" stands.reached.symbol_ne_missing
        false
      have room := ready.budget_lt taken moved
      have ready' := ready.next taken
      have right := works (.operand kind operand ops (power + 1) "right") ready' admitted
        false (absurd · Bool.false_ne_true)
      simp only [Task.cost, Task.Makes] at right
      have next := (right.behind ready taken).mono
        (show _ ≤ s.budget c o by omega) fun _ _ made => made
      refine (next.bind ?_).deeper (by omega)
      rintro right r ⟨built, _⟩
      have less := ready'.budget_le built
      have whole := taken.append built
      have grown := ((Grows.refl ready left).relabel "left").trans (.append ready _ whole)
      have some : withField "left" left ++
          ((s.consume c "operator" s.token.symbol false).1 ++ right) ≠ [] := by simp
      have node : Grows c s left [r.finish kind "" (withField "left" left ++
          (s.consume c "operator" s.token.symbol false).1 ++ right)] r := by
        rw [List.append_assoc]
        exact ⟨grown.passed,
          fun q history =>
            (grown.history q history).wrap some (isProper_iff.mp parts.1.2).2.2.2 "",
          fun _ => List.cons_ne_nil _ _, fun start led => (grown.led start led).finish r kind ""⟩
      have rest := works
        (.operators kind operand ops least
          [r.finish kind "" (withField "left" left ++
            (s.consume c "operator" s.token.symbol false).1 ++ right)] field)
        (ready.next whole) admitted false (absurd · Bool.false_ne_true)
      simp only [Task.cost] at rest
      refine (rest.behind ready whole).mono (by omega) ?_
      exact fun items q made => node.trans made.1

end

/-- Every run of the parser does all tasks well. -/
theorem run_works (o : Outline) (fuel : Nat) : AllWork o fuel (run fuel) := by
  induction fuel with
  | zero =>
      intro c task s ready admitted led hot
      have positive := task.cost_pos o.rank led
      exact (by omega : 0 < s.budget c o + task.cost o.rank led)
  | succ fuel works =>
      intro c task s ready admitted led hot
      cases task with
      | expr e field => exact expression_ends works ready field admitted led hot
      | copies body min count field =>
          exact (copies_ends works ready admitted).mono (Nat.le_refl _)
            fun _ _ made => ⟨made, nofun⟩
      | elements elem sep trailing field => exact elements_ends works ready admitted hot
      | statements field item closers =>
          exact (statements_ends works ready rfl admitted).mono (Nat.le_refl _)
            fun _ _ made => ⟨made, nofun⟩
      | suffixes many all kind built field =>
          obtain ⟨⟨head, admitted⟩, closable⟩ := admitted
          exact (suffixes_ends works ready admitted closable).mono (Nat.le_refl _)
            fun _ _ made => ⟨made, nofun⟩
      | operand kind operand ops least field => exact operand_ends works ready admitted hot
      | operators kind operand ops least left field =>
          exact (operators_ends works ready admitted).mono (Nat.le_refl _)
            fun _ _ made => ⟨made, nofun⟩

end MqTree.Parser
