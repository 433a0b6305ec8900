import MqTree.Proofs.Parser.Alongside

namespace MqTree.Parser

section

variable {c : Context} {o : Outline} {s r : State} {n : Nat} {items : List Item}

theorem Ready.of_passed (ready : Ready c o s) (passed : Passed c s r) : Ready c o r := by
  obtain ⟨frames, stands, _⟩ := passed.stands
  exact ⟨ready.law, ⟨frames, stands⟩,
    fun start inside sub member => ready.fit start inside sub (passed.reuse member)⟩

theorem Ready.passed_self (ready : Ready c o s) : Passed c s s := by
  obtain ⟨frames, stands⟩ := ready.stands
  exact .of_stays stands (.refl s)

theorem Ready.passed_moved (ready : Ready c o s) (more : s.token.isEnd = false) :
    Passed c s (s.moved c) ∧ s.token.start < (s.moved c).prevEnd := by
  obtain ⟨built, moved, _⟩ := ready.consumeAny more
  exact ⟨ready.passed built, moved⟩

theorem run_makes (ready : Ready c o s) (task : Task)
    (admitted : task.Admitted c.table o c.speculating) (ran : run n c task s = .done items r) :
    task.Makes c s items r ∧ (task.Hot c s → Opens s items r) := by
  have ends := run_works o n task ready admitted false nofun
  rwa [ran] at ends

theorem run_passed (ready : Ready c o s) (task : Task)
    (admitted : task.Admitted c.table o c.speculating) (ran : run n c task s = .done items r) :
    Passed c s r := by
  obtain ⟨made, _⟩ := run_makes ready task admitted ran
  cases task with
  | suffixes => exact Grows.passed made
  | operators => exact Grows.passed made
  | expr | copies | elements | statements | operand => exact ready.passed made

theorem run_failed (ready : Ready c o s) (task : Task)
    (admitted : task.Admitted c.table o c.speculating) (ran : run n c task s = .failed r) :
    GaveUp c s r := by
  have ends := run_works o n task ready admitted false nofun
  rwa [ran] at ends

/-- An attempt that failed leaves the parse where it stood. -/
theorem stays_of_attempt {e : Expr} {field : String} (ready : Ready c o s)
    (admitted : c.table.admits o true e = true)
    (ran : run n { c with speculating := true } (.expr e field) s = .failed r) :
    Stays s ((r.log (.backtracked r.token)).rewind s) ∧ r.lexer.reach ≤ c.src.size + 1 := by
  obtain ⟨_, reach, limit, kept⟩ := run_failed ready.speculating (.expr e field) admitted ran
  exact ⟨.rewind reach kept, limit⟩

theorem run_sides (ready : Ready c o s) (task : Task)
    (admitted : task.Admitted c.table o c.speculating) :
    Track.Sides c s (run n c task s) := by
  cases ran : run n c task s with
  | done items r => exact run_passed ready task admitted ran
  | failed r => exact (run_failed ready task admitted ran).reach
  | halted v => trivial

theorem run_moves (ready : Ready c o s) {e : Expr} {f : String}
    (admitted : c.table.admits o c.speculating e = true) (leads : e.leads c.table.nullables = true)
    (starts : s.canStart c e = true) (ran : run n c (.expr e f) s = .done items r) :
    s.token.start < r.prevEnd :=
  ((run_makes ready (.expr e f) admitted ran).2 ⟨leads, starts⟩).moved

theorem sequence_sides (ready : Ready c o s) {es : List Expr}
    (admitted : c.table.admitsAll o c.speculating es = true) (field : String) :
    Track.Sides c s (sequence (run n) c field es s) :=
  .of_ends (sequence_ends (run_works o n) ready admitted field false nofun)
    fun _ _ made => ready.passed made.1

theorem recover_sides (ready : Ready c o s) {e : Expr} (leads : e.leads c.table.nullables = true)
    (admitted : c.table.admits o c.speculating e = true)
    (described : (describe? c.table e).isSome = true) (field : String) (maySkip : Bool) :
    Track.Sides c s (recover (run n) c e field maySkip s) :=
  .of_ends (recover_ends (run_works o n) ready leads admitted described field maySkip)
    fun _ _ made => ready.passed made

theorem skipUpTo_succ (c : Context) (e : Expr) (k count : Nat) (skipped : List Item) (s : State) :
    skipUpTo c e (k + 1) count skipped s =
      if s.skippable then
        if (s.moved c).canStart c e then
          (some (skipped ++ (s.consumeAny c).1, count + 1), s.moved c)
        else skipUpTo c e k (count + 1) (skipped ++ (s.consumeAny c).1) (s.moved c)
      else (none, s) := rfl

theorem recover_of_some {runner : Runner} {e : Expr} {field : String} {skipped : List Item}
    {count : Nat} (trial : c.speculating = false)
    (found : skipUpTo c e c.window 0 [] s = (some (skipped, count), r)) :
    recover runner c e field true s =
      (runner c (.expr e field) (r.log (.skipped count r.token))).after
        [r.finish errorKind "" skipped] := by
  simp only [recover, skipTo, trial, found, if_true, Bool.false_eq_true, if_false]

theorem recover_of_none {runner : Runner} {e : Expr} {field : String}
    (trial : c.speculating = false) (found : skipUpTo c e c.window 0 [] s = (none, r)) :
    recover runner c e field true s = placeholder c e field (r.rewind s) := by
  simp only [recover, skipTo, trial, found, if_true, Bool.false_eq_true, if_false]

theorem attempt_cons {runner : Runner} {field : String} {alt next : Expr} {rest : List Expr} :
    attempt runner c field (alt :: next :: rest) s =
      if s.canStart c alt then
        match runner { c with speculating := true } (.expr alt field) s with
        | .failed stuck =>
            attempt runner c field (next :: rest)
              ((stuck.log (.backtracked stuck.token)).rewind s)
        | outcome => outcome
      else attempt runner c field (next :: rest) s :=
  attempt.eq_3 runner c field s alt (next :: rest) (List.cons_ne_nil next rest)

theorem skipUpTo_passed (ready : Ready c o s) {e : Expr} {k count : Nat} {skipped : List Item}
    {found : Option (List Item × Nat)} (skips : skipUpTo c e k count skipped s = (found, r)) :
    s.lexer.reach ≤ r.lexer.reach ∧ (found.isSome = true → Passed c s r) := by
  induction k generalizing s count skipped with
  | zero =>
      obtain ⟨rfl, rfl⟩ := Prod.mk.inj skips
      exact ⟨Nat.le_refl _, nofun⟩
  | succ k ih =>
      rw [skipUpTo_succ] at skips
      split at skips
      next skippable =>
        have passed := ready.passed (ready.consumeAny (isEnd_of_skippable skippable)).1
        split at skips
        · obtain ⟨rfl, rfl⟩ := Prod.mk.inj skips
          exact ⟨passed.reach, fun _ => passed⟩
        · obtain ⟨reach, later⟩ := ih (ready.of_passed passed) skips
          exact ⟨Nat.le_trans passed.reach reach, fun isSome => passed.trans (later isSome)⟩
      next =>
        obtain ⟨rfl, rfl⟩ := Prod.mk.inj skips
        exact ⟨Nat.le_refl _, nofun⟩

end

namespace Track

inductive Alike (p : Track) (f g : String) : Task → Task → Prop
  | expr (e : Expr) : Alike p f g (.expr e f) (.expr e g)
  | copies (body : Expr) (min : Int) (count : Nat) :
      Alike p f g (.copies body min count f) (.copies body min count g)
  | elements (elem : Expr) (sep : String) (trailing : Bool) :
      Alike p f g (.elements elem sep trailing f) (.elements elem sep trailing g)
  | statements (field : String) (item : Expr) (closers : List String) :
      Alike p f g (.statements field item closers) (.statements field item closers)
  | suffixes (many : Bool) (all : List (Suffix Expr)) (kind : String) {xs ys : List Item}
      (likes : p.Likes "" "" xs ys) :
      Alike p f g (.suffixes many all kind xs f) (.suffixes many all kind ys g)
  | operand (kind : String) (part : Expr) (ops : List (String × UInt8)) (power : UInt8) :
      Alike p f g (.operand kind part ops power f) (.operand kind part ops power g)
  | operators (kind : String) (part : Expr) (ops : List (String × UInt8)) (power : UInt8)
      {xs ys : List Item} (likes : p.Likes "" "" xs ys) :
      Alike p f g (.operators kind part ops power xs f) (.operators kind part ops power ys g)

def Pace (p : Track) (o : Outline) (n m : Nat) : Prop :=
  ∀ {f g : String} {task task' : Task} {s s' : State}, p.Alike f g task task' →
    Ready p.c o s → task.Admitted p.c.table o p.c.speculating → p.Rel s s' →
    p.Follows f g (run n p.c task s) (run m p.d task' s')

/-- What the first parse did past the states that it is followed to: what it
tried there and gave up, and what it took over. -/
structure Calm (p : Track) (o : Outline) : Prop where
  tried : ∀ {n m : Nat} {f g : String} {alt : Expr} {s s' : State}, p.Rel s s' → Ready p.c o s →
    p.c.table.admits o true alt = true →
    p.Follows f g (run n { p.c with speculating := true } (.expr alt f) s)
      (run m { p.d with speculating := true } (.expr alt g) s')
  refused : ∀ {n m : Nat} {f g : String} {alt : Expr} {s s' r q : State}, p.Rel s s' →
    Ready p.c o s → p.c.table.admits o true alt = true → alt.closes = true →
    run n { p.c with speculating := true } (.expr alt f) s = .failed r →
    p.Heeds q → r.lexer.reach ≤ q.lexer.reach →
    (∃ v, run m { p.d with speculating := true } (.expr alt g) s' = .halted v) ∨
      ∃ r', run m { p.d with speculating := true } (.expr alt g) s' = .failed r'
  skipped : ∀ {e : Expr} {s s' r q : State}, p.Rel s s' → Ready p.c o s →
    p.c.table.admits o false e = true →
    skipUpTo p.c e p.c.window 0 [] s = (none, r) → p.Heeds q → r.lexer.reach ≤ q.lexer.reach →
    ∃ r', skipUpTo p.d e p.c.window 0 [] s' = (none, r')
  adopted : ∀ (m : Nat) (field : String) {item : Expr} {s s' : State} {sub : Subtree}
    {rest : ReuseIndex}, p.Rel s s' → Ready p.c o s → s.pending = [] → s'.pending = [] →
    s.atBase = true → p.c.Statement item →
    s.reuse.take? (Int64.ofNat s.token.start) = some (sub, rest) →
    p.Heeds (s.behind p.c sub rest) →
    s'.canStart p.d item = true ∧
      ((∃ v, run m p.d (.expr item field) s' = .halted v) ∨
        ∃ it r, run m p.d (.expr item field) s' = .done [it] r ∧ r.atBase = true ∧
          p.Like field field ⟨field, s.token.start, sub⟩
            { it with node := it.node.asStatement (r.lookahead it.stop) } ∧
          p.Rel (s.behind p.c sub rest) r)

variable {p : Track} {o : Outline} {f g : String} {s s' r r' : State} {e : Expr}

theorem Rel.ready' (lawful : p.Lawful o) (rel : p.Rel s s') : Ready p.d o s' := by
  obtain ⟨frames, _, stands', _⟩ := rel.beside
  refine ⟨lawful.law, ⟨frames, stands'⟩, ?_⟩
  rw [rel.fresh]
  exact fun _ _ _ offered => absurd offered List.not_mem_nil

theorem Lawful.sees (lawful : p.Lawful o) (rel : p.Rel s s') (heeds : p.Heeds s) :
    p.Matches s s' ∨
      p.Parts s s' ∧ ∀ {trial : Bool} {e : Expr}, p.c.table.admits o trial e = true →
        s'.canStart p.d e = false := by
  rcases lawful.meet rel heeds with same | parts
  · exact Or.inl same
  · obtain ⟨frames, _, stands', _⟩ := rel.beside
    refine Or.inr ⟨parts, fun admitted => ?_⟩
    exact @State.canStart_of_isEnd p.d s' o lawful.law stands'.reached.terminal parts.ended _ _
      admitted

theorem Lawful.cold (lawful : p.Lawful o) (rel : p.Rel s s') (heeds : p.Heeds s) {trial : Bool}
    (admitted : p.c.table.admits o trial e = true) (cold : s.canStart p.c e = false) :
    s'.canStart p.d e = false := by
  rcases lawful.sees rel heeds with same | ⟨_, past⟩
  · rw [same.canStart rel, cold]
  · exact past admitted

theorem Lawful.enters {n : Nat} {o' : Outcome} (lawful : p.Lawful o) (rel : p.Rel s s')
    (heeds : p.Heeds s) (ready : Ready p.c o s)
    (admitted : p.c.table.admits o p.c.speculating e = true)
    (leads : e.leads p.c.table.nullables = true) (starts : s.canStart p.c e = true) {h : String}
    (follows : p.Matches s s' → p.Follows f g (run n p.c (.expr e h) s) o') :
    p.Follows f g (run n p.c (.expr e h) s) o' := by
  rcases lawful.meet rel heeds with same | parts
  · exact follows same
  · refine .of_parts parts (run_sides ready (.expr e h) admitted) ?_
    intro items r ran
    exact run_moves ready admitted leads starts ran

theorem Lawful.hot {n : Nat} {o' : Outcome} (lawful : p.Lawful o) (rel : p.Rel s s')
    (heeds : p.Heeds s) (ready : Ready p.c o s)
    (admitted : p.c.table.admits o p.c.speculating e = true)
    (leads : e.leads p.c.table.nullables = true) (starts : s.canStart p.c e = true)
    {k : List Item → State → Outcome} {h : String}
    (later : ∀ items r, Ready p.c o r → run n p.c (.expr e h) s = .done items r →
      Sides p.c r (k items r))
    (follows : p.Matches s s' → p.Follows f g ((run n p.c (.expr e h) s).bind k) o') :
    p.Follows f g ((run n p.c (.expr e h) s).bind k) o' := by
  rcases lawful.meet rel heeds with same | parts
  · exact follows same
  · refine .of_parts_bind parts (run_sides ready (.expr e h) admitted) ?_ ?_
    · intro items r ran
      exact later items r (ready.of_passed (run_passed ready (.expr e h) admitted ran)) ran
    · intro items r ran
      exact run_moves ready admitted leads starts ran

theorem Lawful.consumes {first first' : Outcome} (lawful : p.Lawful o) (rel : p.Rel s s')
    (heeds : p.Heeds s) (ready : Ready p.c o s) (more : s.token.isEnd = false)
    (sides : Sides p.c (s.moved p.c) first)
    (follows : p.Matches s s' → p.Rel (s.moved p.c) (s'.moved p.d) → p.Heeds (s.moved p.c) →
      p.Follows f g first first') : p.Follows f g first first' := by
  obtain ⟨passed, moves⟩ := ready.passed_moved more
  apply Follows.heed lawful sides
  intro heeded
  rcases lawful.meet rel heeds with same | parts
  · exact follows same (rel.moved lawful same more heeded) heeded
  · exact absurd heeded (parts.stuck _ passed moves)

/-! ### Recovery -/

theorem Matches.leafAny (same : p.Matches s s') (rel : p.Rel s s') :
    p.Likes "" "" (s.consumeAny p.c).1 (s'.consumeAny p.d).1 := by
  have leaf := same.leaf rel "" "" s.token.symbol (isNamedSymbol s.token.symbol)
  rw [State.consumeAny, State.consumeAny, same.symbol]
  exact leaf

theorem skipUpTo_some (lawful : p.Lawful o) {trial : Bool}
    (admitted : p.c.table.admits o trial e = true) {k count count' : Nat} {xs ys all : List Item}
    (ready : Ready p.c o s) (rel : p.Rel s s') (likes : p.Likes "" "" xs ys)
    (found : skipUpTo p.c e k count xs s = (some (all, count'), r)) (heeds : p.Heeds r)
    (going : ∀ r', p.Rel r r' → p.Matches r r') :
    ∃ all' r', skipUpTo p.d e k count ys s' = (some (all', count'), r') ∧
      p.Likes "" "" all all' ∧ p.Rel r r' := by
  induction k generalizing s s' count xs ys with
  | zero => simp [skipUpTo] at found
  | succ k ih =>
      rw [skipUpTo_succ] at found
      split at found
      next skippable =>
        have more := isEnd_of_skippable skippable
        obtain ⟨taken, moves, _⟩ := ready.consumeAny more
        have passed := ready.passed taken
        have onward : Passed p.c (s.moved p.c) r := by
          split at found
          · obtain ⟨_, rfl⟩ := Prod.mk.inj found
            obtain ⟨frames, stands, _⟩ := passed.stands
            exact .of_stays stands (.refl _)
          · exact (skipUpTo_passed (ready.of_passed passed) found).2 rfl
        have heeded := lawful.back onward heeds
        have same : p.Matches s s' := by
          rcases lawful.meet rel (lawful.back passed heeded) with same | parts
          · exact same
          · exact absurd heeded (parts.stuck _ passed moves)
        have next := rel.moved lawful same more heeded
        have leaves := likes.append (same.leafAny rel)
        rw [skipUpTo_succ, same.skippable, if_pos skippable]
        split at found
        next starts =>
          obtain ⟨made, rfl⟩ := Prod.mk.inj found
          obtain ⟨rfl, rfl⟩ := Prod.mk.inj (Option.some.inj made)
          rw [(going _ next).canStart next, if_pos starts]
          exact ⟨_, _, rfl, leaves, next⟩
        next cold =>
          rw [lawful.cold next heeded admitted (Bool.eq_false_iff.mpr cold)]
          exact ih (ready.of_passed passed) next leaves found
      next =>
        simp at found

theorem skipUpTo_none (lawful : p.Lawful o) {trial : Bool}
    (admitted : p.c.table.admits o trial e = true) {k count : Nat} {xs ys : List Item}
    (ready : Ready p.c o s) (rel : p.Rel s s')
    (found : skipUpTo p.c e k count xs s = (none, r)) (fails : p.Fails r) :
    ∃ r', skipUpTo p.d e k count ys s' = (none, r') := by
  induction k generalizing s s' count xs ys with
  | zero => exact ⟨s', rfl⟩
  | succ k ih =>
      have heeds := lawful.lost (skipUpTo_passed ready found).1 fails
      have same : p.Matches s s' := by
        rcases lawful.meet rel heeds with same | parts
        · exact same
        · exact absurd fails (parts.calm r)
      rw [skipUpTo_succ] at found
      rw [skipUpTo_succ, same.skippable]
      split at found
      next skippable =>
        rw [if_pos skippable]
        have more := isEnd_of_skippable skippable
        have ready' := ready.of_passed (ready.passed (ready.consumeAny more).1)
        split at found
        · simp at found
        next cold =>
          have heeded := lawful.lost (skipUpTo_passed ready' found).1 fails
          have next := rel.moved lawful same more heeded
          rw [lawful.cold next heeded admitted (Bool.eq_false_iff.mpr cold)]
          exact ih ready' next found
      next other =>
        rw [if_neg other]
        exact ⟨s', rfl⟩

theorem placeholder_follows (rel : p.Rel s s') :
    p.Follows f g (placeholder p.c e f s) (placeholder p.d e g s') := by
  have table : describe? p.d.table e = describe? p.c.table e := rfl
  unfold placeholder
  rw [table]
  split
  · exact Or.inr trivial
  · refine .done (.single ⟨?_, rfl, Or.inr ⟨rfl, rfl⟩⟩) (rel.log _ _)
    exact rel.prevEnd_eq

theorem Rel.rewind (rel : p.Rel s s') (reach : s.lexer.reach ≤ r.lexer.reach)
    (limit : r.lexer.reach ≤ p.c.src.size + 1) (kept : r.reuse = s.reuse)
    (reach' : s'.lexer.reach ≤ r'.lexer.reach) (limit' : r'.lexer.reach ≤ p.other.size + 1)
    (kept' : r'.reuse = s'.reuse) : p.Rel (r.rewind s) (r'.rewind s') :=
  rel.stays (.rewind reach kept) (.rewind reach' kept') limit limit'

section

variable {n m : Nat} (lawful : p.Lawful o) (calm : p.c.speculating = false → p.Calm o)
  (pace : p.Pace o n m) (rel : p.Rel s s') (ready : Ready p.c o s)

include lawful calm pace rel ready

omit calm in
private theorem skipped_follows (trial : p.c.speculating = false)
    (leads : e.leads p.c.table.nullables = true)
    (admitted : p.c.table.admits o p.c.speculating e = true) {all : List Item} {count : Nat}
    (found : skipUpTo p.c e p.c.window 0 [] s = (some (all, count), r)) :
    p.Follows f g (recover (run n) p.c e f true s) (recover (run m) p.d e g true s') := by
  have spec := @skipUpTo_spec p.c o s s e p.c.window 0 [] ready ready.idle rfl
  rw [found] at spec
  obtain ⟨built, _, _, starts⟩ := spec
  have logged := (ready.next built).log (.skipped count r.token)
  have ready' := (ready.next built).next logged
  rw [recover_of_some trial found]
  refine .when ?_ ?_
  · intro items q made heeds
    obtain ⟨rest, ran, _⟩ := Outcome.after_eq_done made
    have moved := run_moves ready' admitted leads (by rw [State.canStart_log, starts]) ran
    have onward : Passed p.c r q :=
      ((ready.next built).passed logged).trans (run_passed ready' (.expr e f) admitted ran)
    have heeded := lawful.back onward heeds
    obtain ⟨all', r', skips, likes, next⟩ := skipUpTo_some lawful admitted ready rel .nil found
      heeded fun r' next => by
        rcases lawful.meet next heeded with same | parts
        · exact same
        · exact absurd heeds (parts.stuck q onward moved)
    rw [@recover_of_some p.d s' r' (run m) e g all' count trial skips]
    exact (pace (.expr e) ready' admitted (next.log _ _)).after
      (.single (likes.finish next.prevEnd_eq errorKind "" "").any)
  · intro q made
    have gaveUp := run_failed ready' (.expr e f) admitted (Outcome.after_eq_failed made)
    rw [gaveUp.trial] at trial
    contradiction

omit calm pace in
private theorem unskipped_follows (trial : p.c.speculating = false) (calm : p.Calm o)
    (admitted : p.c.table.admits o false e = true)
    (found : skipUpTo p.c e p.c.window 0 [] s = (none, r)) :
    p.Follows f g (recover (run n) p.c e f true s) (recover (run m) p.d e g true s') := by
  have spec := @skipUpTo_spec p.c o s s e p.c.window 0 [] ready ready.idle rfl
  rw [found] at spec
  obtain ⟨reach, limit, kept⟩ := spec
  rw [recover_of_none trial found]
  refine .when ?_ ?_
  · intro items q made heeds
    have looked : r.lexer.reach ≤ q.lexer.reach := by
      unfold placeholder at made
      split at made
      · contradiction
      · obtain ⟨_, rfl⟩ := Outcome.done.inj made
        exact Nat.le_refl _
    obtain ⟨r', found'⟩ := calm.skipped rel ready admitted found heeds looked
    have spec' := @skipUpTo_spec p.d o s' s' e p.c.window 0 [] (rel.ready' lawful)
      (rel.ready' lawful).idle rfl
    rw [found'] at spec'
    obtain ⟨reach', limit', kept'⟩ := spec'
    rw [@recover_of_none p.d s' r' (run m) e g trial found']
    exact placeholder_follows (rel.rewind reach limit kept reach' limit' kept')
  · intro q made
    unfold placeholder at made
    split at made <;> contradiction

theorem recover_follows (leads : e.leads p.c.table.nullables = true)
    (admitted : p.c.table.admits o p.c.speculating e = true) (maySkip : Bool) :
    p.Follows f g (recover (run n) p.c e f maySkip s) (recover (run m) p.d e g maySkip s') := by
  cases trial : p.c.speculating with
  | true =>
      have given : recover (run n) p.c e f maySkip s = .failed s := by rw [recover, if_pos trial]
      have given' : recover (run m) p.d e g maySkip s' = .failed s' := by
        rw [recover, if_pos (show p.d.speculating = true from trial)]
      rw [given, given']
      exact .failed
  | false =>
      cases maySkip with
      | false =>
          have given : recover (run n) p.c e f false s = placeholder p.c e f s := by
            simp only [recover, trial, Bool.false_eq_true, if_false]
          have given' : recover (run m) p.d e g false s' = placeholder p.d e g s' := by
            simp only [recover, show p.d.speculating = false from trial, Bool.false_eq_true,
              if_false]
          rw [given, given']
          exact placeholder_follows rel
      | true =>
          cases found : skipUpTo p.c e p.c.window 0 [] s with
          | mk result r =>
              cases result with
              | some skipped => exact skipped_follows lawful pace rel ready trial leads admitted found
              | none =>
                  rw [trial] at admitted
                  exact unskipped_follows lawful rel ready trial (calm trial) admitted found

theorem terminal_follows {takes takes' : Bool} {kind : String} {named : Bool}
    (heeds : p.Heeds s) (leads : e.leads p.c.table.nullables = true)
    (admitted : p.c.table.admits o p.c.speculating e = true)
    (more : takes = true → s.token.isEnd = false) (same : p.Matches s s' → takes' = takes)
    (past : s'.token.isEnd = true → takes' = false) :
    p.Follows f g
      (if takes then .done (s.consume p.c f kind named).1 (s.consume p.c f kind named).2
        else recover (run n) p.c e f true s)
      (if takes' then .done (s'.consume p.d g kind named).1 (s'.consume p.d g kind named).2
        else recover (run m) p.d e g true s') := by
  cases taken : takes with
  | true =>
      have isMore := more taken
      apply lawful.consumes rel heeds ready isMore
      · exact (ready.of_passed (ready.passed_moved isMore).1).passed_self
      · intro matching next _
        rw [same matching, taken]
        exact .done (matching.leaf rel f g kind named) next
  | false =>
      have cold : takes' = false := by
        rcases lawful.meet rel heeds with matching | parts
        · rw [same matching, taken]
        · exact past parts.ended
      rw [cold]
      exact recover_follows lawful calm pace rel ready leads admitted true

theorem tok_follows {sym : String} {words : List String} (heeds : p.Heeds s)
    (admitted : p.c.table.admits o p.c.speculating (.tok sym words) = true) :
    p.Follows f g (expression (run n) p.c f (.tok sym words) s)
      (expression (run m) p.d g (.tok sym words) s') := by
  refine terminal_follows lawful calm pace rel ready heeds rfl admitted ?_ ?_ ?_
  · intro takes
    rw [Bool.and_eq_true, Bool.and_eq_true, Bool.not_eq_true'] at takes
    exact takes.1.1
  · intro same
    rw [same.isEnd, same.symbol, (same.looksLike rel).accepts]
  · intro ended
    rw [ended]
    rfl

theorem leaf_follows {kind sym : String} (heeds : p.Heeds s)
    (admitted : p.c.table.admits o p.c.speculating (.leaf kind sym) = true) :
    p.Follows f g (expression (run n) p.c f (.leaf kind sym) s)
      (expression (run m) p.d g (.leaf kind sym) s') := by
  refine terminal_follows lawful calm pace rel ready heeds rfl admitted ?_ ?_ ?_
  · intro takes
    rw [Bool.and_eq_true, Bool.not_eq_true'] at takes
    exact takes.1
  · intro same
    rw [same.isEnd, same.symbol]
  · intro ended
    rw [ended]
    rfl

theorem reference_follows {name : String} (heeds : p.Heeds s)
    (admitted : p.c.table.admits o p.c.speculating (.ref name) = true) :
    p.Follows f g (reference (run n) p.c name f s) (reference (run m) p.d name g s') := by
  have parts := admitted
  simp only [Table.admits, Bool.and_eq_true, Bool.not_eq_true'] at parts
  obtain ⟨⟨⟨_, present⟩, required⟩, _⟩ := parts
  have required' : p.d.table.nullable (.ref name) = false := required
  obtain ⟨rule, found⟩ := Option.isSome_iff_exists.mp present
  have found' : p.d.table.rule? name = some rule := found
  unfold reference
  simp only [required, required', found, found', Bool.not_false, Bool.true_and]
  cases starts : s.canStart p.c (.ref name) with
  | false =>
      rw [lawful.cold rel heeds admitted starts]
      exact recover_follows lawful calm pace rel ready rfl admitted true
  | true =>
      obtain ⟨lawfulRule, inner⟩ := admits_body lawful.law admitted found
      obtain ⟨leads, entered⟩ := body_starts lawfulRule found starts
      simp only [Bool.not_true, Bool.false_eq_true, if_false]
      cases rule.hidden with
      | true =>
          simp only [if_true]
          apply lawful.enters rel heeds ready inner leads entered
          intro same
          rw [same.canStart rel, starts]
          exact pace (.expr rule.body) ready inner rel
      | false =>
          simp only [Bool.false_eq_true, if_false]
          refine lawful.hot rel heeds ready inner leads entered ?_ ?_
          · exact fun items r ready' _ => ready'.passed_self
          · intro same
            rw [same.canStart rel, starts]
            refine (pace (.expr rule.body) ready inner rel).bind lawful ?_ ?_
            · exact fun items r ran =>
                (ready.of_passed (run_passed ready (.expr rule.body "") inner ran)).passed_self
            · intro items r items' r' _ likes next
              exact .done (.single (likes.finish next.prevEnd_eq rule.nodeKind f g)) next

theorem choice_follows {alts : List Expr} (heeds : p.Heeds s)
    (admitted : p.c.table.admits o p.c.speculating (.choice alts) = true) :
    p.Follows f g (expression (run n) p.c f (.choice alts) s)
      (expression (run m) p.d g (.choice alts) s') := by
  have parts := admitted
  simp only [Table.admits, Bool.and_eq_true] at parts
  obtain ⟨⟨_, leads⟩, all⟩ := parts
  simp only [expression]
  cases found : alts.find? (s.canStart p.c) with
  | some alt =>
      have starts := List.find?_some found
      obtain ⟨lead, inner, _⟩ := of_mem_alts leads all (List.mem_of_find?_eq_some found)
      apply lawful.enters rel heeds ready inner lead starts
      intro same
      have alike : s'.canStart p.d = s.canStart p.c := funext (same.canStart rel)
      rw [alike, found]
      exact pace (.expr alt) ready inner rel
  | none =>
      have none : alts.find? (s'.canStart p.d) = none := by
        rw [List.find?_eq_none] at found ⊢
        intro alt member
        obtain ⟨_, inner, _⟩ := of_mem_alts leads all member
        rw [lawful.cold rel heeds inner (Bool.eq_false_iff.mpr (found alt member))]
        exact Bool.false_ne_true
      have lead : (Expr.choice alts).leads p.c.table.nullables = true := by
        rw [Expr.leads]
        exact leads
      rw [none]
      exact recover_follows lawful calm pace rel ready lead admitted true

omit calm rel ready in
theorem sequence_follows {es : List Expr} (rel : p.Rel s s') (ready : Ready p.c o s)
    (admitted : p.c.table.admitsAll o p.c.speculating es = true) :
    p.Follows f g (sequence (run n) p.c f es s) (sequence (run m) p.d g es s') := by
  induction es generalizing s s' with
  | nil => exact .done .nil rel
  | cons e es ih =>
      rw [Table.admitsAll, Bool.and_eq_true] at admitted
      rw [sequence, sequence]
      have onward (items : List Item) (r : State) (ran : run n p.c (.expr e f) s = .done items r) :
          Ready p.c o r := ready.of_passed (run_passed ready (.expr e f) admitted.1 ran)
      refine (pace (.expr e) ready admitted.1 rel).andThen lawful ?_ ?_
      · exact fun items r ran => sequence_sides (onward items r ran) admitted.2 f
      · exact fun items r r' ran next => ih next (onward items r ran) admitted.2

omit rel ready in
theorem attempt_follows {alts : List Expr} (trial : p.c.speculating = false) (rel : p.Rel s s')
    (ready : Ready p.c o s) (admitted : p.c.table.admitsTrials o alts = true) :
    p.Follows f g (attempt (run n) p.c f alts s) (attempt (run m) p.d g alts s') := by
  have sides {s : State} {alts : List Expr} (ready : Ready p.c o s)
      (admitted : p.c.table.admitsTrials o alts = true) :
      Sides p.c s (attempt (run n) p.c f alts s) :=
    .of_ends (attempt_ends (run_works o n) ready trial admitted f) fun _ _ made =>
      ready.passed made
  induction alts generalizing s s' with
  | nil => exact Or.inr trivial
  | cons alt rest ih =>
      apply Follows.heed lawful (sides ready admitted)
      intro heeds
      cases rest with
      | nil =>
          rw [Table.admitsTrials, ← trial] at admitted
          rw [attempt, attempt]
          exact pace (.expr alt) ready admitted rel
      | cons next rest =>
          rw [Table.admitsTrials, Bool.and_eq_true, Bool.and_eq_true, Bool.and_eq_true] at admitted
          obtain ⟨⟨⟨leads, closes⟩, inner⟩, others⟩ := admitted
          have trying := Ready.speculating ready
          obtain ⟨frames, _, stands', _⟩ := rel.beside
          rw [attempt_cons, attempt_cons]
          cases starts : s.canStart p.c alt with
          | false =>
              rw [lawful.cold rel heeds inner starts]
              exact ih rel ready others
          | true =>
              simp only [if_true]
              rcases lawful.sees rel heeds with same | ⟨parts, past⟩
              · rw [same.canStart rel, starts]
                simp only [if_true]
                have tried := (calm trial).tried (n := n) (m := m) (f := f) (g := g) rel ready inner
                cases ran : run n { p.c with speculating := true } (.expr alt f) s with
                | done items r =>
                    rw [ran] at tried
                    rcases tried with ⟨v, cut⟩ | follows
                    · rw [cut]
                      exact Or.inl ⟨v, rfl⟩
                    · refine Or.inr fun heeded => ?_
                      obtain ⟨items', r', made, likes, next⟩ := follows heeded
                      rw [made]
                      exact ⟨items', r', rfl, likes, next⟩
                | failed r =>
                    obtain ⟨stays, limit⟩ := stays_of_attempt ready inner ran
                    have ready' := ready.next (.idle stays limit)
                    simp only []
                    refine .when ?_ ?_
                    · intro items q made heeded
                      have onward := sides ready' others
                      rw [made] at onward
                      rcases (calm trial).refused (m := m) (g := g) rel ready inner closes ran heeded
                        onward.reach with ⟨v, cut⟩ | ⟨r', failed⟩
                      · rw [cut]
                        exact Or.inl ⟨v, rfl⟩
                      · obtain ⟨_, reach', limit', kept'⟩ :=
                          run_failed (Ready.speculating (rel.ready' lawful)) (.expr alt g) inner failed
                        rw [failed]
                        exact ih (rel.stays stays (.rewind reach' kept') limit limit') ready' others
                    · intro q made
                      have ends := attempt_ends (run_works o n) ready' trial others f
                      rw [made] at ends
                      rw [ends.trial] at trial
                      contradiction
                | halted v => exact Or.inr trivial
              · rw [past inner]
                simp only [Bool.false_eq_true, if_false]
                cases ran : run n { p.c with speculating := true } (.expr alt f) s with
                | done items r =>
                    refine Or.inr fun heeded => absurd heeded (parts.stuck r ?_ ?_)
                    · have made := (run_makes trying (.expr alt f) inner ran).1
                      exact ready.passed (Built.of_speculating made)
                    · exact run_moves trying inner leads
                        ((State.canStart_speculating s true alt).trans starts) ran
                | failed r =>
                    obtain ⟨stays, limit⟩ := stays_of_attempt ready inner ran
                    exact ih (rel.stays stays (.refl s') limit stands'.reach_le)
                      (ready.next (.idle stays limit)) others
                | halted v => exact Or.inr trivial

/-! ### Expressions -/

theorem guarded_follows {body : Expr} (heeds : p.Heeds s)
    (admitted : p.c.table.admits o p.c.speculating body = true)
    (leads : body.leads p.c.table.nullables = true)
    (whole : p.c.table.admits o p.c.speculating e = true)
    (inner : s.canStart p.c e = true → s.canStart p.c body = true) :
    p.Follows f g
      (if s.canStart p.c e then run n p.c (.expr body f) s
        else recover (run n) p.c body f false s)
      (if s'.canStart p.d e then run m p.d (.expr body g) s'
        else recover (run m) p.d body g false s') := by
  cases starts : s.canStart p.c e with
  | true =>
      simp only [if_true]
      apply lawful.enters rel heeds ready admitted leads (inner starts)
      intro same
      rw [same.canStart rel, starts]
      exact pace (.expr body) ready admitted rel
  | false =>
      rw [lawful.cold rel heeds whole starts]
      exact recover_follows lawful calm pace rel ready leads admitted false

omit calm in
theorem unary_follows {kind : String} {ops : List String} {operand : Expr} (heeds : p.Heeds s)
    (admitted : p.c.table.admits o p.c.speculating (.unary kind ops operand) = true) :
    p.Follows f g (expression (run n) p.c f (.unary kind ops operand) s)
      (expression (run m) p.d g (.unary kind ops operand) s') := by
  have parts := admitted
  simp only [Table.admits, Bool.and_eq_true] at parts
  simp only [expression]
  cases operator : (s.token.kind == .punctuation && ops.contains s.token.lit) with
  | true =>
      have more : s.token.isEnd = false := by
        rw [Bool.and_eq_true, beq_iff_eq] at operator
        rw [Token.isEnd, operator.1]
        rfl
      have ready' := ready.of_passed (ready.passed_moved more).1
      have onward (items : List Item) (r : State)
          (ran : run n p.c (.expr (.unary kind ops operand) "operand") (s.moved p.c) =
            .done items r) : Passed p.c r r :=
        (ready'.of_passed (run_passed ready' (.expr _ "operand") admitted ran)).passed_self
      apply lawful.consumes rel heeds ready more
      · exact (run_sides ready' (.expr _ "operand") admitted).bind onward
      · intro same next _
        rw [same.kind, same.lit, operator]
        refine (pace (.expr _) ready' admitted next).bind lawful onward ?_
        intro items r items' r' _ likes last
        have leaf := same.leaf rel "operator" "operator" s.token.lit false
        exact .done (.single ((leaf.any.append (f := "") (g := "") likes.any).finish
          last.prevEnd_eq kind f g)) last
  | false =>
      have none : (s'.token.kind == .punctuation && ops.contains s'.token.lit) = false := by
        rcases lawful.meet rel heeds with same | parts
        · rw [same.kind, same.lit, operator]
        · have ended := parts.ended
          rw [Token.isEnd, beq_iff_eq] at ended
          rw [ended]
          rfl
      rw [none]
      exact pace (.expr operand) ready parts.2 rel

omit calm in
/-- Elements that the token starts are started there too, or lie apart. -/
theorem started_follows {elem : Expr} {sep : String} {trailing : Bool} (heeds : p.Heeds s)
    (admitted : p.c.table.admits o p.c.speculating (.sepBy elem sep trailing) = true)
    (starts : s.canStart p.c elem = true) (other : Outcome) :
    p.Follows f g (run n p.c (.elements elem sep trailing f) s)
      (if s'.canStart p.d elem then run m p.d (.elements elem sep trailing g) s' else other) := by
  rcases lawful.meet rel heeds with same | apart
  · rw [same.canStart rel, starts]
    exact pace (.elements elem sep trailing) ready admitted rel
  · refine .of_parts apart (run_sides ready (.elements elem sep trailing f) admitted) ?_
    intro items r ran
    exact ((run_makes ready (.elements elem sep trailing f) admitted ran).2 starts).moved

theorem expression_follows (heeds : p.Heeds s)
    (admitted : p.c.table.admits o p.c.speculating e = true) :
    p.Follows f g (expression (run n) p.c f e s) (expression (run m) p.d g e s') := by
  have parts := admitted
  cases e with
  | tok sym words => exact tok_follows lawful calm pace rel ready heeds admitted
  | leaf kind sym => exact leaf_follows lawful calm pace rel ready heeds admitted
  | ref name => exact reference_follows lawful calm pace rel ready heeds admitted
  | seq items =>
      simp only [Table.admits, Bool.and_eq_true] at parts
      exact sequence_follows lawful pace rel ready parts.2
  | choice alts => exact choice_follows lawful calm pace rel ready heeds admitted
  | ordered alts =>
      simp only [Table.admits, Bool.and_eq_true, Bool.not_eq_true'] at parts
      exact attempt_follows lawful calm pace parts.1.2 rel ready parts.2
  | opt body =>
      simp only [Table.admits, Bool.and_eq_true] at parts
      simp only [expression]
      cases starts : s.canStart p.c body with
      | true =>
          simp only [if_true]
          apply lawful.enters rel heeds ready parts.2 parts.1.2 starts
          intro same
          rw [same.canStart rel, starts]
          exact pace (.expr body) ready parts.2 rel
      | false =>
          rw [lawful.cold rel heeds parts.2 starts]
          exact .done .nil rel
  | rep body min => exact pace (.copies body min 0) ready admitted rel
  | sepBy elem sep trailing =>
      simp only [Table.admits, Bool.and_eq_true] at parts
      simp only [expression]
      cases starts : s.canStart p.c elem with
      | true =>
          exact started_follows lawful pace rel ready heeds admitted starts _
      | false =>
          rw [lawful.cold rel heeds parts.2 starts]
          exact .done .nil rel
  | field name body =>
      simp only [Table.admits, Bool.and_eq_true] at parts
      exact (pace (.expr (f := name) (g := name) body) ready parts.2 rel).any
  | immediate body | sameLine body =>
      simp only [Table.admits, Bool.and_eq_true] at parts
      refine guarded_follows lawful calm pace rel ready heeds parts.2 parts.1.2 admitted ?_
      intro starts
      rw [State.canStart, Bool.and_eq_true] at starts
      exact starts.2
  | stmts name item closers => exact pace (.statements name item closers) ready admitted rel
  | suffixed head many suffixes =>
      simp only [Table.admits, Bool.and_eq_true] at parts
      have going (built : List Item) :
          (Task.suffixes many suffixes "" built f).Admitted p.c.table o p.c.speculating :=
        ⟨⟨head, admitted⟩, fun some => absurd rfl some⟩
      have onward (items : List Item) (r : State)
          (ran : run n p.c (.expr head "") s = .done items r) : Ready p.c o r :=
        ready.of_passed (run_passed ready (.expr head "") parts.1.2 ran)
      refine (pace (.expr head) ready parts.1.2 rel).bind lawful ?_ ?_
      · exact fun built r ran => run_sides (onward built r ran) _ (going built)
      · exact fun built r built' r' ran likes next =>
          pace (.suffixes many suffixes "" likes) (onward built r ran) (going built) next
  | binary kind operand ops => exact pace (.operand kind operand ops 0) ready admitted rel
  | unary kind ops operand => exact unary_follows lawful pace rel ready heeds admitted

end

end Track

end MqTree.Parser
