import MqTree.Proofs.Grammar.MqLaw
import MqTree.Proofs.Parser.Document
import MqTree.Proofs.Parser.Entry
import MqTree.Proofs.Parser.Meeting
import MqTree.Proofs.Parser.Path

namespace MqTree.Parser

open Text

namespace Track

/-- A parse from `a` to `stop`, and a parse of nothing but the bytes between. -/
def excerpt (c : Context) (a stop : Nat) : Track where
  c := c
  other := c.src.extract a stop
  a := a
  b := 0
  index := .empty
  Heeds s := s.prevEnd ≤ stop
  Fails _ := False
  Way := Path c stop

/-- The same parses with their parts exchanged, to before the last token. -/
def setting (c : Context) (a stop : Nat) : Track where
  c := { c with src := c.src.extract a stop }
  other := c.src
  a := 0
  b := a
  index := .empty
  Heeds s := s.token.start < stop - a
  Fails _ := False
  Way start := Path c stop (a + start)

section

variable {c : Context} {o : Outline} {a stop start : Nat} {frames : List Frame} {s s' : State}

theorem size_excerpt (inside : stop ≤ c.src.size) :
    (excerpt c a stop).other.size = stop - a := by
  simp only [excerpt, Array.size_extract]
  omega

theorem excerpt_lands (inside : stop ≤ c.src.size) (path : Path c stop start frames)
    (above : a ≤ start) (before : start < stop) :
    (excerpt c a stop).Matches (State.landing c start frames)
      (State.landing (excerpt c a stop).d (start - a) frames) := by
  obtain ⟨_, taken, _⟩ := path.step before
  have size := size_excerpt (a := a) inside
  have landed := @landings_meet (excerpt c a stop) (stop - a) start frames
    (agree_extract c.src a stop) above (by simp only [excerpt]; omega)
    (by rw [size]; simp only [excerpt]; omega)
    (by
      refine Or.inr ⟨?_, ?_, ?_⟩
      · simp only [excerpt]
        omega
      · rw [size]
        simp only [excerpt]
        omega
      · intro kind near dollar
        have whole := path.dollar (by omega) before kind (by simp only [excerpt] at near; omega)
          dollar
        simp only [excerpt]
        omega)
    (Or.inl (by rw [size]; simp only [excerpt]; omega))
  simp only [excerpt, Nat.zero_add] at landed ⊢
  exact landed

theorem excerpt_matches (inside : stop ≤ c.src.size) (rel : (excerpt c a stop).Rel s s')
    (before : s.prevEnd < stop) : (excerpt c a stop).Matches s s' := by
  apply rel.sees
  intro frames _ way
  rw [show (excerpt c a stop).b = 0 from rfl, Nat.zero_add]
  exact excerpt_lands inside way rel.above before

theorem excerpt_ends (inside : stop ≤ c.src.size) (rel : (excerpt c a stop).Rel s s')
    (ended : s.prevEnd = stop) : s'.prevEnd = stop - a ∧ s'.token.isEnd = true := by
  obtain ⟨frames, _, stands', _⟩ := rel.beside
  have later := stands'.prevEnd_le_start
  have bound := stands'.reached.start_le
  have prevEnd := rel.prevEnd
  have size : (excerpt c a stop).d.src.size = stop - a := size_excerpt inside
  simp only [excerpt, Nat.zero_add, ended] at prevEnd
  exact ⟨prevEnd, stands'.reached.isEnd_iff.mpr (by omega)⟩

theorem excerpt_lawful (law : c.table.Lawful o) (inside : stop ≤ c.src.size) :
    (excerpt c a stop).Lawful o where
  law := law
  back := fun passed heeds => Nat.le_trans passed.prevEnd heeds
  lost := fun _ => False.elim
  meet := by
    intro s s' rel heeds
    rcases Nat.lt_or_eq_of_le heeds with before | ended
    · exact Or.inl (excerpt_matches inside rel before)
    · right
      obtain ⟨frames, stands, _⟩ := rel.beside
      have later := stands.prevEnd_le_start
      refine ⟨(excerpt_ends inside rel ended).2, ?_, fun _ => id⟩
      intro r _ moved further
      have limit : r.prevEnd ≤ stop := further
      omega
  next := by
    intro s frames stands way more heeds
    have ends : (s.moved c).prevEnd = s.token.stop := stands.moved.2.1
    have limit : (s.moved c).prevEnd ≤ stop := heeds
    have later := stands.prevEnd_le_start
    have taken := (stands.reached.start_lt more).1
    obtain ⟨_, _, rest⟩ := Path.step (c := c) way (by omega)
    rw [show s.lexer.frames = (State.landing c s.prevEnd frames).lexer.frames from
      congrArg Cursor.frames stands.cursor, stands.token]
    exact rest

theorem reuse_eq_empty {index : ReuseIndex} (none : index.entries ⊆ ReuseIndex.empty.entries) :
    index = .empty := by
  obtain ⟨entries⟩ := index
  exact congrArg ReuseIndex.mk (List.subset_nil.mp none)

theorem Rel.turn (rel : (excerpt c a stop).Rel s s') : (setting c a stop).Rel s' s := by
  obtain ⟨⟨frames, stands, stands', way, pending⟩, above, prevEnd, offered, fresh⟩ := rel
  simp only [excerpt] at above prevEnd
  refine ⟨⟨frames, stands', stands, ?_, ?_⟩, Nat.zero_le _, ?_, ?_, reuse_eq_empty offered⟩
  · have same : a + s'.prevEnd = s.prevEnd := by omega
    simp only [setting, same]
    exact way
  · rcases pending with ⟨own, own'⟩ | ⟨none, none'⟩
    · exact Or.inl ⟨own', own⟩
    · exact Or.inr ⟨none', none⟩
  · simp only [setting]
    omega
  · rw [fresh]
    exact List.Subset.refl _

theorem setting_matches (inside : stop ≤ c.src.size) (rel : (setting c a stop).Rel s' s)
    (more : s'.token.start < stop - a) : (setting c a stop).Matches s' s := by
  obtain ⟨⟨frames, stands', stands, way, pending⟩, _, prevEnd, offered, fresh⟩ := rel
  simp only [setting, Nat.sub_zero] at prevEnd
  have turned : (excerpt c a stop).Rel s s' := by
    refine ⟨⟨frames, stands, stands', ?_, ?_⟩, ?_, ?_, ?_, reuse_eq_empty offered⟩
    · rw [prevEnd]
      exact way
    · rcases pending with ⟨own', own⟩ | ⟨none', none⟩
      · exact Or.inl ⟨own, own'⟩
      · exact Or.inr ⟨none, none'⟩
    · simp only [excerpt]
      omega
    · simp only [excerpt]
      omega
    · rw [fresh]
      exact List.Subset.refl _
  have before := stands'.prevEnd_le_start
  have later := stands.prevEnd_le_start
  have ends := stands.reached.start_le_stop.1
  obtain ⟨kind, lit, start, stop, newline, text, likes⟩ :=
    excerpt_matches inside turned (by omega)
  simp only [excerpt, Nat.zero_add] at start stop
  refine ⟨kind.symm, lit.symm, ?_, ?_, newline.symm, text.symm, ?_⟩
  · simp only [setting]
    omega
  · simp only [setting]
    omega
  · apply List.Forall₂.flip
    refine likes.imp fun x y like => ⟨?_, like.node.symm, like.field.imp Eq.symm And.symm⟩
    have shifted := like.start
    simp only [excerpt, setting] at shifted ⊢
    omega

theorem setting_lawful (law : c.table.Lawful o) (inside : stop ≤ c.src.size) :
    (setting c a stop).Lawful o where
  law := law
  back := fun passed heeds => Nat.lt_of_le_of_lt passed.start_le heeds
  lost := fun _ => False.elim
  meet := fun rel heeds => Or.inl (setting_matches inside rel heeds)
  next := by
    intro s' frames stands way more _
    have size : (excerpt c a stop).d.src.size = stop - a := size_excerpt inside
    have taken : s'.token.start < (excerpt c a stop).d.src.size := (stands.reached.start_lt more).2
    have later := stands.prevEnd_le_start
    have before : a + s'.prevEnd < stop := by omega
    obtain ⟨_, _, rest⟩ := Path.step (c := c) way before
    have landed := excerpt_lands inside way (Nat.le_add_right a _) before
    rw [Nat.add_sub_cancel_left] at landed
    have reached := State.landing_reached (c := c) frames (Nat.le_trans (Nat.le_of_lt before) inside)
    have ends := landed.stop
    have lit := landed.lit
    have token : s'.token = (State.landing (excerpt c a stop).d s'.prevEnd frames).token :=
      stands.token
    rw [← token] at ends lit
    have opened : s'.lexer.frames =
        (State.landing c (a + s'.prevEnd) frames).lexer.frames := by
      rw [stands.reached.opened, reached.opened, lit]
    have stop_eq : a + s'.token.stop = (State.landing c (a + s'.prevEnd) frames).token.stop := by
      have above := reached.start_le_stop.1
      have further := Int.ofNat_le.mp
        (State.landing_spread (c := c) frames (Nat.le_trans (Nat.le_of_lt before) inside)).low_le
      simp only [excerpt] at ends
      omega
    simp only [setting]
    rw [opened, stop_eq]
    exact rest

theorem sequence_append {runner : Runner} (field : String) (xs ys : List Expr) (s : State) :
    sequence runner c field (xs ++ ys) s =
      (sequence runner c field xs s).andThen (sequence runner c field ys) := by
  induction xs generalizing s with
  | nil =>
      rw [List.nil_append, sequence, Outcome.andThen, Outcome.bind_done, Outcome.after_nil]
  | cons e es ih =>
      rw [List.cons_append, sequence, sequence]
      cases first : runner c (.expr e field) s with
      | failed r => rfl
      | halted v => rfl
      | done items q =>
          simp only [Outcome.andThen, Outcome.bind_done, ih]
          cases sequence runner c field es q with
          | failed r => rfl
          | halted v => rfl
          | done more r =>
              simp only [Outcome.after, Outcome.bind_done]
              cases sequence runner c field ys r with
              | failed w => rfl
              | halted v => rfl
              | done last w => simp only [Outcome.bind_done, List.append_assoc]

theorem admitsAll_append {t : Table} {trial : Bool} (xs ys : List Expr) :
    t.admitsAll o trial (xs ++ ys) = (t.admitsAll o trial xs && t.admitsAll o trial ys) := by
  induction xs with
  | nil => rfl
  | cons e es ih => rw [List.cons_append, Table.admitsAll, Table.admitsAll, ih, Bool.and_assoc]

theorem exists_append_tok {e : Expr} (closes : e.closes = true) :
    ∃ front sym words, e = .seq (front ++ [.tok sym words]) := by
  unfold Expr.closes at closes
  split at closes
  next items =>
    split at closes
    next sym words last =>
      obtain ⟨front, rfl⟩ := List.getLast?_eq_some_iff.mp last
      exact ⟨front, sym, words, rfl⟩
    next => contradiction
  next => contradiction

section

variable {front : List Expr} {sym : String} {words : List String} {field : String} {n : Nat}
  {items : List Item} {r u : State}

theorem tok_of_attempt (trial : c.speculating = true)
    (ran : run (n + 1) c (.expr (.tok sym words) field) s = .done items r) :
    (!s.token.isEnd && s.token.symbol == sym && s.accepts c words) = true := by
  rw [run, step, expression] at ran
  split at ran
  next takes => exact takes
  next =>
    rw [recover, if_pos trial] at ran
    contradiction

theorem attempt_taken (trial : c.speculating = true)
    (ran : run (n + 1) c (.expr (.seq (front ++ [.tok sym words])) field) s = .done items r) :
    ∃ before u, sequence (run n) c field front s = .done before u ∧
      (!u.token.isEnd && u.token.symbol == sym && u.accepts c words) = true := by
  rw [run, step, expression, sequence_append] at ran
  obtain ⟨before, u, first, later⟩ := Outcome.bind_eq_done ran
  obtain ⟨last, closed, _⟩ := Outcome.after_eq_done later
  rw [sequence] at closed
  obtain ⟨token, _, taken, _⟩ := Outcome.bind_eq_done closed
  cases n with
  | zero => contradiction
  | succ n => exact ⟨before, u, first, tok_of_attempt trial taken⟩

theorem attempt_ne_failed {before : List Item}
    (first : sequence (run n) c field front s = .done before u)
    (takes : (!u.token.isEnd && u.token.symbol == sym && u.accepts c words) = true) :
    run (n + 1) c (.expr (.seq (front ++ [.tok sym words])) field) s ≠ .failed r := by
  intro ran
  rw [run, step, expression, sequence_append, first, Outcome.andThen, Outcome.bind_done,
    sequence] at ran
  cases n with
  | zero => contradiction
  | succ n =>
      have done : run (n + 1) c (.expr (.tok sym words) field) u =
          .done (u.consume c field sym (isNamedSymbol sym)).1 (u.moved c) := by
        rw [run, step, expression]
        exact if_pos takes
      rw [done, Outcome.andThen, Outcome.bind_done, sequence] at ran
      contradiction

end

variable {alt : Expr} {f g : String} {n m : Nat} {r : State}

/-- An attempt that takes its last token in the excerpt takes it in the text. -/
theorem excerpt_refuses (law : c.table.Lawful o) (inside : stop ≤ c.src.size)
    (rel : (excerpt c a stop).Rel s s') (admitted : c.table.admits o true alt = true)
    (closes : alt.closes = true)
    (ran : run n { c with speculating := true } (.expr alt f) s = .failed r) :
    (∃ v, run m { (excerpt c a stop).d with speculating := true } (.expr alt g) s' = .halted v) ∨
      ∃ r', run m { (excerpt c a stop).d with speculating := true } (.expr alt g) s' =
        .failed r' := by
  obtain ⟨front, sym, words, rfl⟩ := exists_append_tok closes
  simp only [Table.admits, Bool.and_eq_true, admitsAll_append] at admitted
  have ready := Ready.speculating (Rel.ready' (excerpt_lawful law inside) rel)
  have lawful := (setting_lawful (a := a) law inside).trial
  cases n with
  | zero => contradiction
  | succ n =>
      cases m with
      | zero => exact Or.inl ⟨_, rfl⟩
      | succ m =>
          cases ran' : run (m + 1) { (excerpt c a stop).d with speculating := true }
            (.expr (.seq (front ++ [.tok sym words])) g) s' with
          | halted v => exact Or.inl ⟨v, rfl⟩
          | failed r' => exact Or.inr ⟨r', rfl⟩
          | done items' r' =>
              exfalso
              obtain ⟨before', u', first', takes'⟩ := attempt_taken rfl ran'
              obtain ⟨frames, stands'⟩ : ∃ frames, Stands (excerpt c a stop).d frames u' := by
                have passed := sequence_sides (n := m) ready admitted.2.1 g
                rw [first'] at passed
                obtain ⟨frames, stands', _⟩ := passed.stands
                exact ⟨frames, stands'.of_speculating⟩
              have heeds : u'.token.start < stop - a := by
                have size : (excerpt c a stop).d.src.size = stop - a := size_excerpt inside
                rw [Bool.and_eq_true, Bool.and_eq_true, Bool.not_eq_true'] at takes'
                have before := (stands'.reached.start_lt takes'.1.1).2
                omega
              -- Up to a token before the end of the excerpt the text is parsed alike.
              have follows := sequence_follows (p := (setting c a stop).trial) lawful
                (Track.follows lawful (Bool.noConfusion ·) m n) (f := g) (g := f)
                rel.turn.trial ready admitted.2.1
              rcases follows with ⟨v, cut⟩ | follows
              · have there : sequence (run n) { c with speculating := true } f front s =
                  .halted v := cut
                rw [run, step, expression, sequence_append, there] at ran
                contradiction
              · have here : sequence (run m) (setting c a stop).trial.c g front s' =
                  .done before' u' := first'
                rw [here] at follows
                obtain ⟨items, u, made, _, next⟩ := follows heeds
                have same := setting_matches inside next.of_trial heeds
                have takes : (!u.token.isEnd && u.token.symbol == sym && u.accepts c words) =
                    true := by
                  have accepts := (same.looksLike next.of_trial).accepts words
                  rw [same.isEnd, same.symbol]
                  exact (congrArg _ accepts).trans takes'
                exact attempt_ne_failed (c := { c with speculating := true }) made takes ran

theorem excerpt_skips (law : c.table.Lawful o) (inside : stop ≤ c.src.size)
    (rel : (excerpt c a stop).Rel s s') {e : Expr} (admitted : c.table.admits o false e = true)
    (found : skipUpTo c e c.window 0 [] s = (none, r)) :
    ∃ r', skipUpTo (excerpt c a stop).d e c.window 0 [] s' = (none, r') := by
  have ready := Rel.ready' (excerpt_lawful law inside) rel
  cases found' : skipUpTo (excerpt c a stop).d e c.window 0 [] s' with
  | mk result r' =>
      cases result with
      | none => exact ⟨r', rfl⟩
      | some skipped =>
          exfalso
          have spec := @skipUpTo_spec (excerpt c a stop).d o s' s' e c.window 0 [] ready ready.idle
            rfl
          rw [found'] at spec
          obtain ⟨built, _, _, starts⟩ := spec
          obtain ⟨frames, stands⟩ := (ready.next built).stands
          have more := State.isEnd_of_canStart (c := (excerpt c a stop).d) law
            stands.reached.terminal admitted starts
          have size : (excerpt c a stop).d.src.size = stop - a := size_excerpt inside
          have heeds : r'.token.start < stop - a := by
            have before := (stands.reached.start_lt more).2
            omega
          obtain ⟨all, q, skips, _, _⟩ := skipUpTo_some (p := setting c a stop)
            (setting_lawful law inside) admitted ready rel.turn .nil found' heeds
            fun q next => setting_matches inside next heeds
          have there : skipUpTo c e c.window 0 [] s = (some (all, _), q) := skips
          rw [found] at there
          exact nomatch (Prod.mk.inj there).1

theorem excerpt_calm (law : c.table.Lawful o) (inside : stop ≤ c.src.size) :
    (excerpt c a stop).Calm o where
  tried := fun rel ready admitted => (excerpt_lawful law inside).tries rel ready admitted _ _
  refused := fun rel _ admitted closes ran _ _ => excerpt_refuses law inside rel admitted closes ran
  skipped := fun rel _ admitted found _ _ => excerpt_skips law inside rel admitted found
  adopted := by
    intro m field item s s' sub rest rel _ _ _ _ _ taken
    have offered := rel.offered (ReuseIndex.mem_of_take? taken).1
    contradiction

theorem excerpt_rel (stands : Stands c [] s) (pending : s.pending = [])
    (fresh : s.reuse.entries ⊆ ReuseIndex.empty.entries) (path : Path c stop s.token.start []) :
    (excerpt c s.token.start stop).Rel s.settled
      (State.initial (excerpt c s.token.start stop).d .empty) := by
  have reached := stands.reached
  obtain ⟨stands', prevEnd, reuse, comments⟩ :=
    Stands.initial (excerpt c s.token.start stop).d .empty
  obtain ⟨_, _, none, _⟩ := State.landing_of_solid reached.start_le (reached.solid rfl)
    (by rw [← reached.kind]; exact reached.notComment)
  refine ⟨⟨[], stands.settled pending, stands', path, Or.inl ⟨?_, ?_⟩⟩, ?_, ?_, fresh, reuse⟩
  · show s.pending = (State.landing c s.token.start []).pending
    rw [pending, none]
  · rw [prevEnd]
    exact comments
  · exact Nat.le_refl _
  · rw [prevEnd]
    simp [excerpt]

end

end Track

/-! ### Statements alone -/

theorem statements_of_fresh {runner : Runner} {c : Context} {field : String} {item : Expr}
    {closers : List String} {s : State} (fresh : s.reuse = .empty) (pending : s.pending = [])
    (more : s.atListEnd closers = false) (starts : s.canStart c item = true) :
    statements runner c field item closers s =
      (runner c (.expr item field) s).bind fun items next =>
        (runner c (.statements field item closers) next).after (markStatement s next items) := by
  have same : { s with pending := [] } = s := by
    conv_lhs => rw [← pending]
  rw [statements, more]
  simp only [Bool.false_eq_true, if_false, same, pending, Outcome.after_nil,
    Track.reuse?_of_empty fresh, starts, if_true]

section

variable {c : Context} {o : Outline} {frames : List Frame} {s r : State} {it : Item}

theorem Parsed.single {items : List Item} {last : State} (parsed : Parsed c o .empty items last)
    (pending : (State.initial c .empty).pending = [])
    (more : (State.initial c .empty).token.isEnd = false)
    (starts : (State.initial c .empty).canStart c (.ref o.statement) = true)
    (runs : ∀ n, (∃ v, run n c (.expr (.ref o.statement) "") (State.initial c .empty) = .halted v) ∨
      ∃ own q, run n c (.expr (.ref o.statement) "") (State.initial c .empty) = .done [own] q ∧
        q.atBase = true ∧ q.token.isEnd = true) :
    ∃ own n, run n c (.expr (.ref o.statement) "") (State.initial c .empty) = .done [own] last ∧
      items = [{ own with node := own.node.asStatement (last.lookahead own.stop) }] := by
  obtain ⟨stands, _, fresh, _⟩ := Stands.initial c .empty
  have base : (State.initial c .empty).atBase = true := stands.reached.atBase
  have going : (State.initial c .empty).atListEnd [] = false := by
    rw [State.atListEnd, more]
    rfl
  have ran := parsed.ran
  cases deep : fuel c with
  | zero =>
      rw [deep] at ran
      contradiction
  | succ n =>
      rw [deep, run, step, expression] at ran
      cases n with
      | zero => contradiction
      | succ n =>
          rw [run, step, statements_of_fresh fresh pending going starts] at ran
          rcases runs n with ⟨v, cut⟩ | ⟨own, q, made, after, ended⟩
          · rw [cut] at ran
            contradiction
          · rw [made, Outcome.bind_done, markStatement, base, after] at ran
            cases n with
            | zero => contradiction
            | succ n =>
                have past : q.atListEnd [] = true := by rw [State.atListEnd, ended, Bool.true_or]
                rw [run, step, statements, if_pos past] at ran
                obtain ⟨rfl, rfl⟩ := Outcome.done.inj ran
                exact ⟨own, n + 1, made, rfl⟩

theorem Complete.alone (complete : Complete c s it r) (law : c.table.Lawful o)
    (stands : Stands c frames s) (fresh : s.reuse.entries ⊆ ReuseIndex.empty.entries) :
    ∃ own last, Parsed (Track.excerpt c s.token.start r.prevEnd).d o .empty [own] last ∧
      last.pending = [] ∧ own.node.bare = (it.node.asStatement (r.lookahead it.stop)).bare := by
  obtain rfl := stands.frames_eq_nil complete.before
  obtain ⟨item, field, n, statement, starts, ran⟩ := complete.ran
  obtain ⟨rfl, admitted⟩ := statement.admitted law
  rw [← complete.calm] at admitted
  have settled := stands.settled complete.pending
  have ready : Ready c o s.settled := by
    refine ⟨law, ⟨[], settled⟩, ?_⟩
    exact fun _ _ _ offered => absurd (fresh offered) List.not_mem_nil
  rw [← run_settled law stands _ admitted rfl rfl starts] at ran
  have built : Built c s.settled [it] r :=
    (run_makes ready (.expr (.ref o.statement) field) admitted ran).1
  obtain ⟨frames', standing, _, back⟩ :=
    built.path settled (List.subset_nil.mp fresh) r.prevEnd
  obtain rfl := standing.frames_eq_nil complete.after
  have inside : r.prevEnd ≤ c.src.size := standing.prevEnd_le
  have rel := Track.excerpt_rel stands complete.pending fresh (back .here)
  have lawful := Track.excerpt_lawful (a := s.token.start) law inside
  have same := Track.excerpt_matches inside rel complete.moved
  obtain ⟨items, last, parsed⟩ := @Parsed.of_lawful (Track.excerpt c s.token.start r.prevEnd).d o
    .empty law complete.calm fun _ _ _ offered => absurd offered List.not_mem_nil
  have runs (m : Nat) :
      (∃ v, run m (Track.excerpt c s.token.start r.prevEnd).d (.expr (.ref o.statement) "")
        (State.initial (Track.excerpt c s.token.start r.prevEnd).d .empty) = .halted v) ∨
      ∃ own q, run m (Track.excerpt c s.token.start r.prevEnd).d (.expr (.ref o.statement) "")
          (State.initial (Track.excerpt c s.token.start r.prevEnd).d .empty) = .done [own] q ∧
        (Track.excerpt c s.token.start r.prevEnd).Like field "" it own ∧
        (Track.excerpt c s.token.start r.prevEnd).Rel r q := by
    have follows := Track.follows lawful (fun _ => Track.excerpt_calm law inside) n m
      (.expr (f := field) (g := "") (.ref o.statement)) ready admitted rel
    have here : run n (Track.excerpt c s.token.start r.prevEnd).c
      (.expr (.ref o.statement) field) s.settled = .done [it] r := ran
    rw [here] at follows
    exact follows.single (Nat.le_refl r.prevEnd)
  have none : (State.initial (Track.excerpt c s.token.start r.prevEnd).d .empty).pending = [] := by
    have likes := same.pending
    rw [State.settled_pending, complete.pending] at likes
    exact List.forall₂_nil_left_iff.mp likes
  have more := State.isEnd_of_canStart law stands.reached.terminal admitted starts
  obtain ⟨own, m, made, rfl⟩ := parsed.single none (same.isEnd.trans more)
    ((same.canStart rel _).trans ((State.canStart_settled rfl rfl).trans starts))
    fun m => (runs m).imp id fun ⟨own, q, made, _, next⟩ =>
      ⟨own, q, made, next.atBase.trans complete.after, (Track.excerpt_ends inside next rfl).2⟩
  rcases runs m with ⟨v, cut⟩ | ⟨own', q, made', like, next⟩
  · rw [made] at cut
    contradiction
  · rw [made] at made'
    obtain ⟨same, rfl⟩ := Outcome.done.inj made'
    obtain rfl := (List.cons.inj same).1
    refine ⟨_, last, parsed, ?_, (like.asStatement _ _).node⟩
    obtain ⟨frames, _, standing', _⟩ := next.beside
    obtain rfl := standing'.frames_eq_nil (next.atBase.trans complete.after)
    apply standing'.pending_eq_nil
    rw [(Track.excerpt_ends inside next rfl).1]
    exact (Track.size_excerpt inside).symm

end

def Isolated (p : Parser) (text : Text) (n : Node) : Prop :=
  ∃ src alone edge, text.slice? n.start n.stop = some src ∧ p.parse src = .ok alone ∧
    alone.root.children = [edge] ∧ edge.node.bare = n.sub.bare

theorem Keeps.isolated {p : Parser} {o : Outline} (law : p.table.Lawful o) (text : Text) :
    Keeps (p.context text) .empty (p.Isolated text) where
  marked := by
    intro frames s r it stands fresh complete built _
    obtain ⟨own, last, parsed, none, same⟩ := complete.alone law stands fresh
    obtain ⟨frames', standing, _⟩ := (built.passed stands).stands
    have inside : r.prevEnd ≤ text.size := standing.prevEnd_le
    have ends := (built.examined_eq stands).1
    have moved := complete.moved
    refine ⟨text.extract s.token.start r.prevEnd, _, rootEdge own, ?_,
      parse_eq_of_build (parsed.build_eq law), ?_, same⟩
    · have stop : (Node.mk (it.node.asStatement (r.lookahead it.stop)) it.start).stop =
          r.prevEnd := by
        rw [← ends]
        simp only [Node.stop, Item.stop, Subtree.length_asStatement]
      have start : (Node.mk (it.node.asStatement (r.lookahead it.stop)) it.start).start =
          s.token.start := complete.led
      rw [slice?, stop, start, if_pos (by omega), Int.toNat_natCast, Int.toNat_natCast]
    · show ([own] ++ last.pending).map rootEdge = [rootEdge own]
      rw [none]
      rfl
  taken := fun _ _ _ offered => absurd offered List.not_mem_nil

/-- Nothing around a statement shows in its tree: its text alone is parsed into
the same, but for how far was looked behind it. -/
theorem statements_isolated (window : Nat) (text : Text) :
    ∃ tree, Parser.parse { window } text = .ok tree ∧
      ∀ n ∈ tree.rootNode.walk, n.isStatement = true →
        ∃ src alone edge, tree.textOf? n = some src ∧ Parser.parse { window } src = .ok alone ∧
          alone.root.children = [edge] ∧ edge.node.bare = n.sub.bare := by
  obtain ⟨items, last, parsed⟩ := @Parsed.of_lawful (Parser.context { window } text) Mq.outline
    .empty Mq.lawful rfl fun _ _ _ offered => absurd offered List.not_mem_nil
  refine ⟨_, parse_eq_of_build (parsed.build_eq Mq.lawful), ?_⟩
  intro n member marked
  exact (parsed.keeps (Keeps.isolated (p := { window }) Mq.lawful text) member marked).2.1

end MqTree.Parser
