import MqTree.Proofs.Parser.Document
import MqTree.Proofs.Parser.Taking

namespace MqTree.Parser

/-! Every parse by a steady grammar ends with a tree. Whenever a loop goes round,
a token was taken. -/

variable {c : Context} {s r q : State} {firm : List String} {depth : String → Nat} {n : Nat}

section

variable (grounds : Grounds c firm depth) {runner : Runner} (serves : Serves c firm depth n runner)
  {trial : Bool}

include grounds serves

theorem copies_lands (stage : Stage c s) {body : Expr} {min : Int} {count : Nat}
    (part : c.table.Part (.rep body min))
    (room : Room c depth s (body.guarded c.table firm)
      (1 + (min - count).toNat + 2 * body.weight) (n + 1)) (field : String) :
    (copies runner { c with speculating := trial } body min count field s).Lands c trial s
      (s.canStart c body = true) := by
  have inner := part.only rfl
  have required : c.table.nullable body = false := grounds.accepted.checks part
  have slips : body.slips c.table firm true = false := by
    have steady := grounds.steady_of_part part
    rwa [Expr.steady, Bool.not_eq_true'] at steady
  have enough : s.reserve c ≤ n := room.reserve_le (by omega)
  unfold copies
  rw [@State.canStart_speculating c s trial body]
  split
  next starts =>
    refine (guarded_lands serves stage inner starts (room.mono (List.Subset.refl _) (by omega))
      field).bind fun items r onward takes => Outcome.Lands.after ?_ items
    exact lands_behind grounds serves onward (takes slips) enough
      (.copies body min (count + 1) field) part trivial
  next other =>
    split
    · exact ⟨stage.refl, fun starts => absurd starts other⟩
    next fewer =>
      refine (recover_lands grounds serves stage inner required enough field true).bind
        fun items r onward _ => Outcome.Lands.after ?_ items
      by_cases later : s.token.start < r.token.start
      · exact lands_behind grounds serves onward later enough (.copies body min (count + 1) field)
          part trivial
      · have still := onward.still.resolve_right later
        refine (serves trial false (.copies body min (count + 1) field) r onward.toStage part
          trivial ((room.mono (List.Subset.refl _) ?_).still still)).behind onward
            fun starts => absurd starts other
        simp only [Task.load]
        omega

theorem elements_lands (stage : Stage c s) {elem : Expr} {sep : String} {trailing : Bool}
    (part : c.table.Part (.sepBy elem sep trailing)) (starts : s.canStart c elem = true)
    (room : Room c depth s (elem.guarded c.table firm) (1 + 2 * elem.weight) (n + 1))
    (field : String) :
    (elements runner { c with speculating := trial } elem sep trailing field s).Lands c trial s
      (elem.slips c.table firm true = false) := by
  have inner := part.only rfl
  have required : c.table.nullable elem = false := grounds.accepted.checks part
  have proper : sep ≠ endSymbol := by
    have steady := grounds.steady_of_part part
    rwa [Expr.steady, bne_iff_ne] at steady
  have enough : s.reserve c ≤ n := room.reserve_le (by omega)
  refine (guarded_lands serves stage inner starts (room.mono (List.Subset.refl _) (by omega))
    field).bind fun items q onward takes => Outcome.Lands.after ?_ items
  simp only
  split
  · exact ⟨onward, takes⟩
  next other =>
    have symbol : q.token.symbol = sep := by simpa using other
    have more := State.isEnd_of_symbol_ne symbol proper
    have taken := onward.toStage.take more
    have whole := onward.trans taken
    have later := Nat.lt_of_le_of_lt onward.start_le (onward.toStage.start_lt_moved more)
    rw [State.consume_snd, State.moved_speculating, State.canStart_speculating]
    refine Outcome.Lands.after ?_ _
    split
    next again =>
      exact lands_behind grounds serves whole later enough (.elements elem sep trailing field) part
        again
    next =>
      split
      · exact ⟨whole, fun _ => later⟩
      · have left := Nat.le_trans whole.reserve_le enough
        exact (recover_lands grounds serves taken.toStage inner required left field false).behind
          whole fun _ => Or.inl later

theorem not_atListEnd (stage : Stage c s) {name : String} {item : Expr} {closers : List String}
    (part : c.table.Part (.stmts name item closers)) (starts : s.canStart c item = true)
    (room : Room c depth s (item.guarded c.table firm) (1 + 2 * item.weight) (n + 1)) :
    s.atListEnd closers = false := by
  rw [State.atListEnd, Bool.or_eq_false_iff]
  constructor
  · -- An item takes the token, and none is behind the end.
    have inner := part.only rfl
    have slips : item.slips c.table firm true = false := by
      have steady := grounds.steady_of_part part
      rwa [Expr.steady, Bool.not_eq_true'] at steady
    have lands : (runner { c with speculating := false } (.expr item name) s).Lands c false s
        (item.slips c.table firm true = false) :=
      guarded_lands serves stage inner starts (room.mono (List.Subset.refl _) (by omega)) name
    generalize runner { c with speculating := false } (.expr item name) s = outcome at lands
    cases outcome with
    | done items r =>
        have later := lands.2 slips
        have facing := lands.1.toFaces
        have inside := Nat.le_trans facing.start_le_stop (facing.offset ▸ facing.inside)
        apply Bool.eq_false_iff.mpr
        intro ended
        rw [stage.ended ended] at later
        omega
    | failed r => exact absurd lands.1 (by decide)
    | halted v => exact lands.elim
  · apply Bool.eq_false_iff.mpr
    intro closed
    rw [List.contains_iff_mem] at closed
    have known := Table.starts_terminal grounds.accepted.few (grounds.accepted.known part closed)
    have closes : c.table.Starts (c.table.terminals closers) s.token.symbol :=
      Table.starts_foldr (Or.inr ⟨_, closed, known⟩)
    exact closes.disjoint (stage.starts (State.among_of_canStart item starts))
      (grounds.accepted.checks part).2

theorem statements_lands (stage : Stage c s) {name : String} {item : Expr} {closers : List String}
    (part : c.table.Part (.stmts name item closers))
    (room : Room c depth s (item.guarded c.table firm) (1 + 2 * item.weight) (n + 1)) :
    (statements runner { c with speculating := trial } name item closers s).Lands c trial s
      (s.canStart c item = true) := by
  have inner := part.only rfl
  have slips : item.slips c.table firm true = false := by
    have steady := grounds.steady_of_part part
    rwa [Expr.steady, Bool.not_eq_true'] at steady
  have enough : s.reserve c ≤ n := room.reserve_le (by omega)
  have rest {q : State} (onward : Onward c s q) (later : s.token.start < q.token.start) :
      (runner { c with speculating := trial } (.statements name item closers) q).Lands c trial s
        (s.canStart c item = true) :=
    lands_behind grounds serves onward later enough (.statements name item closers) part trivial
  unfold statements
  split
  next ended =>
    refine ⟨stage.refl, fun starts => ?_⟩
    have going := not_atListEnd grounds serves stage part starts room
    exact absurd (ended.symm.trans going) (by decide)
  next going =>
    have flushed := stage.flush
    have nothing := @Alone.reuse?_eq_none c { s with pending := [] } trial (Or.inr stage.fresh) name
    simp only [nothing]
    refine Outcome.Lands.after ?_ s.pending
    have same : State.canStart c { s with pending := [] } item = s.canStart c item :=
      (Still.flush s).canStart item
    rw [(State.canStart_speculating _ trial item).trans same]
    split
    next starts =>
      have one : (runner { c with speculating := trial } (.expr item name)
          { s with pending := [] }).Lands c trial s True := by
        refine (guarded_lands serves flushed.toStage inner (same.trans starts) ?_ name).behind
          flushed fun _ => Or.inr slips
        exact (room.mono (List.Subset.refl _) (by omega)).still (.flush s)
      exact one.bind fun items q onward takes => (rest onward (takes trivial)).after _
    next other =>
      cases trial with
      | true => exact ⟨rfl, stage.fresh⟩
      | false =>
          have untried : { c with speculating := false } = c := by rw [← grounds.calm]
          rw [untried] at rest ⊢
          simp only [Bool.false_eq_true, if_false]
          have more : s.token.isEnd = false :=
            (Bool.or_eq_false_iff.mp (Bool.eq_false_iff.mpr going)).1
          obtain ⟨skipped, later⟩ := flushed.toStage.skipStatement more item closers
          exact (rest (flushed.trans skipped) later).after _

theorem suffixes_lands (stage : Stage c s) {many : Bool} {all : List (Suffix Expr)}
    (known : ∃ head, c.table.Part (.suffixed head many all))
    (room : Room c depth s (Expr.entersInTails c.table firm all)
      (1 + 2 * ((all.map Suffix.tail).map Expr.weight).sum) (n + 1))
    (kind : String) (built : List Item) (field : String) :
    (suffixes runner { c with speculating := trial } many all kind built field s).Lands c trial s
      False := by
  obtain ⟨head, part⟩ := known
  unfold suffixes
  simp only [canStart_speculating_eq]
  split
  next => exact ⟨stage.refl, False.elim⟩
  next x found =>
    have member := List.mem_of_find?_eq_some found
    have light : x.tail.weight ≤ ((all.map Suffix.tail).map Expr.weight).sum :=
      List.le_sum_of_mem (List.mem_map_of_mem (List.mem_map_of_mem member))
    have fewer : x.tail.guarded c.table firm ⊆
        Expr.entersInTails c.table firm all := by
      rw [Expr.entersInTails_eq]
      exact fun y inside => List.mem_flatMap.mpr ⟨x, member, inside⟩
    have tail := part.inner (List.mem_cons_of_mem head (List.mem_map_of_mem member))
    have starts := List.find?_some found
    refine (guarded_lands serves stage tail starts (room.mono fewer (by omega)) "").bind
      fun more q onward takes => ?_
    split
    next again =>
      subst again
      have slips : x.tail.slips c.table firm true = false := by
        have steady := grounds.steady_of_part part
        rw [Expr.steady, Bool.not_true, Bool.false_or, List.all_eq_true] at steady
        simpa using steady x member
      exact lands_behind grounds serves onward (takes slips) (room.reserve_le (by omega))
        (.suffixes true all x.kind _ field) ⟨head, part⟩ trivial
    next => exact ⟨onward, False.elim⟩

theorem operators_lands (stage : Stage c s) {kind : String} {operand : Expr}
    {ops : List (String × UInt8)} (part : c.table.Part (.binary kind operand ops))
    (enough : s.reserve c ≤ n) (least : UInt8) (left : List Item) (field : String) :
    (operators runner { c with speculating := trial } kind operand ops least left field s).Lands c
      trial s False := by
  unfold operators
  split
  next => exact ⟨stage.refl, False.elim⟩
  next power found =>
    split
    · exact ⟨stage.refl, False.elim⟩
    · have more : s.token.isEnd = false := by
        unfold power? at found
        split at found
        next mark => exact (isEnd_of_mark (beq_iff_eq.mp mark)).1
        next => contradiction
      have taken := stage.take more
      have later := stage.start_lt_moved more
      change Outcome.Lands c trial s _
        ((runner _ _ (s.moved { c with speculating := trial })).bind _)
      rw [State.moved_speculating]
      have right : (runner { c with speculating := trial }
          (.operand kind operand ops (power + 1) "right") (s.moved c)).Lands c trial s True :=
        lands_behind grounds serves taken later enough
          (.operand kind operand ops (power + 1) "right") part nofun
      refine right.bind fun items q onward takes => ?_
      exact lands_behind grounds serves onward (takes trivial) enough
        (.operators kind operand ops least _ field) part trivial

end

theorem run_serves (grounds : Grounds c firm depth) (n : Nat) : Serves c firm depth n (run n) := by
  induction n with
  | zero =>
      intro trial led task s stage known suited room
      have some := task.load_pos
      have own := room.own
      omega
  | succ n ih =>
      intro trial led task s stage known suited room
      cases task with
      | expr e field => exact expression_lands grounds ih stage known suited room field
      | copies body min count field => exact copies_lands grounds ih stage known room field
      | elements elem sep trailing field =>
          exact elements_lands grounds ih stage known suited room field
      | statements name item closers => exact statements_lands grounds ih stage known room
      | suffixes many all kind built field =>
          exact suffixes_lands grounds ih stage known room kind built field
      | operand kind operand ops least field =>
          have one := ih trial led (.expr operand "") s stage (known.only rfl) suited
            (room.mono (List.Subset.refl _) (by simp only [Task.load]; omega))
          refine one.bind fun left q onward takes => ?_
          have rest := ih trial false (.operators kind operand ops least left field) q
            onward.toStage known trivial ⟨?_, fun x none => absurd none List.not_mem_nil⟩
          · exact rest.behind onward fun starts => Or.inl (takes starts)
          · have less := onward.reserve_le
            have own := room.own
            have some := operand.weight_pos
            simp only [Task.load] at own ⊢
            omega
      | operators kind operand ops least left field =>
          exact operators_lands grounds ih stage known (room.reserve_le Nat.one_pos) least left
            field

theorem Grounds.build_ok (grounds : Grounds c firm depth) :
    ∃ result, build c .empty = .ok result := by
  obtain ⟨r, found⟩ := Option.isSome_iff_exists.mp grounds.accepted.start
  have part := Table.part_body found
  have room : Room c depth (.initial c .empty) (r.body.entered c.table firm false)
      (2 * r.body.weight) (fuel c) := by
    have light := part.weight_le
    have rest : (State.initial c .empty).reserve c ≤ c.src.size * c.allowance :=
      Nat.mul_le_mul_right _ (Nat.sub_le _ _)
    have whole : fuel c = c.src.size * c.allowance + 2 * c.allowance := Nat.add_mul _ _ _
    have own : c.allowance = 4 * c.table.weight + 4 := rfl
    refine ⟨by omega, fun x _ => ?_⟩
    have limit := grounds.depths.limit x
    omega
  have lands := run_serves grounds (fuel c) false false (.expr r.body "") _ (.initial c) part nofun
    room
  rw [show { c with speculating := false } = c by rw [← grounds.calm]] at lands
  simp only [build, found]
  generalize run (fuel c) c (.expr r.body "") (.initial c .empty) = outcome at lands ⊢
  cases outcome with
  | done items q => exact ⟨_, rfl⟩
  | failed q => exact absurd lands.1 Bool.false_ne_true
  | halted v => exact lands.elim

/-- A grammar that passes all checks and in which tokens are taken by what they
start gives every text a tree: the parse comes to an end, and without an index
out of range. -/
theorem parse_total {g : Grammar} {t : Table} (built : Table.build g = .ok t)
    {firm : List String} (steady : t.Steady firm) (window : Nat) (text : Text) :
    ∃ tree, Parser.parse ⟨t, window⟩ text = .ok tree := by
  have accepted := Table.accepted_of_build built
  obtain ⟨depth, depths⟩ := steady.depths accepted.ranked
  have grounds : Grounds ⟨t, text, window, false⟩ firm depth := ⟨rfl, accepted, steady, depths⟩
  obtain ⟨⟨root, events⟩, made⟩ := grounds.build_ok
  exact ⟨_, @parse_eq_of_build ⟨t, window⟩ text root events made⟩

theorem parse_total_mq : mq.Steady (mq.rules.map Rule.name) ∧
    ∃ tree, Parser.parse ⟨mq, 0⟩ (Text.ofString "let x = (") = .ok tree :=
  ⟨Mq.steady, parse_total Mq.build_eq Mq.steady 0 _⟩

def hollow : Grammar := ⟨"hollow", "start", [⟨"start", "", false, "", .choice []⟩]⟩

/-- The checks ask an ordered choice for alternatives, but no other choice. There
is then nothing that a placeholder could be for. -/
theorem hollow_out_of_range : ∃ t, Table.build hollow = .ok t ∧
    Parser.parse ⟨t, 2⟩ (Text.ofString "") = .error .outOfRange := by
  refine ⟨(Table.draft hollow).1, Table.build_of_sound (by decide +kernel) (by decide +kernel)
    (by decide +kernel) (by decide +kernel), ?_⟩
  rfl

/-! ### A parse that does not end -/

def returningBody : Expr := .seq [.tok "identifier" ["x"], .ref "start"]

def returning : Grammar := ⟨"returning", "start", [⟨"start", "", false, "", returningBody⟩]⟩

theorem returning_built : Table.build returning = .ok (Table.draft returning).1 :=
  Table.build_of_sound (by decide +kernel) (by decide +kernel) (by decide +kernel)
    (by decide +kernel)

theorem returning_rule (table : c.table = (Table.draft returning).1) :
    c.table.rule? "start" = some ⟨"start", "", false, "", returningBody⟩ := by
  rw [table]
  rfl

/-- An identifier that is not the word gets a placeholder in front of it. -/
theorem returning_leaves (window : c.window = 0) (calm : c.speculating = false)
    (other : s.accepts c ["x"] = false) (n : Nat) :
    ∃ items q, run (n + 1) c (.expr (.tok "identifier" ["x"]) "") s = .done items q ∧
      Still s q := by
  refine ⟨[⟨"", s.prevEnd, .placeholder "identifier"⟩],
    (s.rewind s).log (.missing "identifier" s.token), ?_, rfl, rfl, rfl⟩
  show expression (run n) c "" (.tok "identifier" ["x"]) s = _
  simp only [expression, other, Bool.and_false, Bool.false_eq_true, if_false, recover, calm,
    if_true, skipTo, window, skipUpTo, placeholder, describe?]
  rfl

/-- The first terminals of the rule hold each identifier, so that the rule is
entered again at the one that it left. No depth is enough for that. -/
theorem returning_comes_back (table : c.table = (Table.draft returning).1) (window : c.window = 0)
    (calm : c.speculating = false) (starts : s.canStart c (.ref "start") = true)
    (other : s.accepts c ["x"] = false) (n : Nat) :
    run n c (.expr (.ref "start") "") s = .halted .endless := by
  have enters (n : Nat) {s : State} (starts : s.canStart c (.ref "start") = true)
      (body : run n c (.expr returningBody "") s = .halted .endless) :
      run (n + 1) c (.expr (.ref "start") "") s = .halted .endless := by
    show reference (run n) c "start" "" s = _
    simp only [reference, starts, returning_rule table, body, Bool.not_true, Bool.and_false,
      Bool.false_eq_true, if_false, Outcome.bind_halted]
  induction n using Nat.strong_induction_on generalizing s with
  | _ n ih =>
      match n with
      | 0 => rfl
      | 1 => exact enters 0 starts rfl
      | 2 => exact enters 1 starts rfl
      | n + 3 =>
          obtain ⟨items, q, done, still⟩ := returning_leaves window calm other n
          have again := ih (n + 1) (by omega) ((still.canStart _).trans starts)
            (show q.accepts c ["x"] = false by rw [State.accepts, still.token]; exact other)
          refine enters (n + 2) starts ?_
          show sequence (run (n + 1)) c "" [.tok "identifier" ["x"], .ref "start"] s = _
          simp only [sequence, Outcome.andThen, done, again, Outcome.bind_done,
            Outcome.bind_halted, Outcome.after]

theorem returning_endless : ∃ t, Table.build returning = .ok t ∧
    ∀ n, run n ⟨t, Text.ofString "y", 0, false⟩ (.expr (.ref "start") "")
      (.initial ⟨t, Text.ofString "y", 0, false⟩ .empty) = .halted .endless := by
  refine ⟨_, returning_built, fun n => returning_comes_back rfl rfl rfl ?_ ?_ n⟩
  all_goals decide +kernel

end MqTree.Parser
