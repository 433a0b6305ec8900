import MqTree.Proofs.Parser.Document
import MqTree.Proofs.Parser.Follow

namespace MqTree.Parser.Track

variable {p : Track} {o : Outline} {f g : String} {s s' r r' : State}

section

variable {n m : Nat} (lawful : p.Lawful o) (calm : p.c.speculating = false → p.Calm o)
  (pace : p.Pace o n m) (rel : p.Rel s s') (ready : Ready p.c o s)

include lawful calm pace rel ready

theorem copies_follows {body : Expr} {min : Int} {count : Nat} (heeds : p.Heeds s)
    (admitted : p.c.table.admits o p.c.speculating (.rep body min) = true) :
    p.Follows f g (copies (run n) p.c body min count f s) (copies (run m) p.d body min count g s') := by
  have parts := admitted
  simp only [Table.admits, Bool.and_eq_true] at parts
  obtain ⟨⟨⟨_, described⟩, leads⟩, inner⟩ := parts
  have again {r : State} (ready : Ready p.c o r) :
      Sides p.c r (run n p.c (.copies body min (count + 1) f) r) :=
    run_sides ready (.copies body min (count + 1) f) admitted
  unfold copies
  cases starts : s.canStart p.c body with
  | true =>
      simp only [if_true]
      refine lawful.hot rel heeds ready inner leads starts ?_ ?_
      · exact fun items r ready' _ => (again ready').after items
      · intro same
        rw [same.canStart rel, starts]
        have onward (items : List Item) (r : State)
            (ran : run n p.c (.expr body f) s = .done items r) : Ready p.c o r :=
          ready.of_passed (run_passed ready (.expr body f) inner ran)
        refine (pace (.expr body) ready inner rel).andThen lawful ?_ ?_
        · exact fun items r ran => again (onward items r ran)
        · exact fun items r r' ran next =>
            pace (.copies body min (count + 1)) (onward items r ran) admitted next
  | false =>
      rw [lawful.cold rel heeds inner starts]
      simp only [Bool.false_eq_true, if_false]
      split
      · exact .done .nil rel
      · have sides := recover_sides (n := n) ready leads inner described f true
        have onward (items : List Item) (r : State)
            (ran : recover (run n) p.c body f true s = .done items r) : Ready p.c o r := by
          rw [ran] at sides
          exact ready.of_passed sides
        refine (recover_follows lawful calm pace rel ready leads inner true).andThen lawful ?_ ?_
        · exact fun items r ran => again (onward items r ran)
        · exact fun items r r' ran next =>
            pace (.copies body min (count + 1)) (onward items r ran) admitted next

omit lawful calm pace rel in
private theorem separated_sides {elem : Expr} {sep : String} {trailing : Bool}
    (admitted : p.c.table.admits o p.c.speculating (.sepBy elem sep trailing) = true) :
    Sides p.c s
      (if s.canStart p.c elem then run n p.c (.elements elem sep trailing f) s
        else if trailing then .done [] s else recover (run n) p.c elem f false s) := by
  have parts := admitted
  simp only [Table.admits, Bool.and_eq_true] at parts
  obtain ⟨⟨⟨_, described⟩, leads⟩, inner⟩ := parts
  split
  · exact run_sides ready (.elements elem sep trailing f) admitted
  · split
    · exact ready.passed_self
    · exact recover_sides ready leads inner described f false

private theorem separated_follows {elem : Expr} {sep : String} {trailing : Bool}
    (heeds : p.Heeds s)
    (admitted : p.c.table.admits o p.c.speculating (.sepBy elem sep trailing) = true) :
    p.Follows f g
      (if s.canStart p.c elem then run n p.c (.elements elem sep trailing f) s
        else if trailing then .done [] s else recover (run n) p.c elem f false s)
      (if s'.canStart p.d elem then run m p.d (.elements elem sep trailing g) s'
        else if trailing then .done [] s' else recover (run m) p.d elem g false s') := by
  have parts := admitted
  simp only [Table.admits, Bool.and_eq_true] at parts
  obtain ⟨⟨_, leads⟩, inner⟩ := parts
  cases starts : s.canStart p.c elem with
  | true =>
      exact started_follows lawful pace rel ready heeds admitted starts _
  | false =>
      rw [lawful.cold rel heeds inner starts]
      simp only [Bool.false_eq_true, if_false]
      cases trailing with
      | true => exact .done .nil rel
      | false => exact recover_follows lawful calm pace rel ready leads inner false

theorem elements_follows {elem : Expr} {sep : String} {trailing : Bool}
    (admitted : p.c.table.admits o p.c.speculating (.sepBy elem sep trailing) = true) :
    p.Follows f g (elements (run n) p.c elem sep trailing f s)
      (elements (run m) p.d elem sep trailing g s') := by
  have parts := admitted
  simp only [Table.admits, Bool.and_eq_true, bne_iff_ne] at parts
  obtain ⟨⟨⟨⟨_, proper⟩, _⟩, _⟩, inner⟩ := parts
  have onward (items : List Item) (r : State)
      (ran : run n p.c (.expr elem f) s = .done items r) : Ready p.c o r :=
    ready.of_passed (run_passed ready (.expr elem f) inner ran)
  have more {r : State} (symbol : ¬ (r.token.symbol != sep) = true) : r.token.isEnd = false := by
    rw [bne_iff_ne, not_not] at symbol
    apply Bool.eq_false_iff.mpr
    intro ended
    exact proper (symbol ▸ State.symbol_of_isEnd ended)
  have sides {r : State} (ready : Ready p.c o r) :
      Sides p.c r
        (if r.token.symbol != sep then .done [] r
        else Outcome.after (r.consume p.c "" sep false).1
          (if (r.moved p.c).canStart p.c elem then
            run n p.c (.elements elem sep trailing f) (r.moved p.c)
          else if trailing then .done [] (r.moved p.c)
          else recover (run n) p.c elem f false (r.moved p.c))) := by
    split
    · exact ready.passed_self
    next symbol =>
      have moves := (ready.passed_moved (more symbol)).1
      exact Sides.behind moves ((separated_sides (ready.of_passed moves) admitted).after _)
  refine (pace (.expr elem) ready inner rel).andThen lawful ?_ ?_
  · exact fun items r ran => sides (onward items r ran)
  · intro items r r' ran next
    have ready' := onward items r ran
    apply Follows.heed lawful (sides ready')
    intro heeds
    show p.Follows f g (if r.token.symbol != sep then .done [] r else _)
      (if r'.token.symbol != sep then .done [] r'
        else Outcome.after (r'.consume p.d "" sep false).1
          (if (r'.moved p.d).canStart p.d elem then
            run m p.d (.elements elem sep trailing g) (r'.moved p.d)
          else if trailing then .done [] (r'.moved p.d)
          else recover (run m) p.d elem g false (r'.moved p.d)))
    split
    next symbol =>
      have other : (r'.token.symbol != sep) = true := by
        rcases lawful.meet next heeds with same | apart
        · rw [same.symbol, symbol]
        · rw [State.symbol_of_isEnd apart.ended, bne_iff_ne]
          exact proper.symm
      rw [if_pos other]
      exact .done .nil next
    next symbol =>
      have moves := (ready'.passed_moved (more symbol)).1
      apply lawful.consumes next heeds ready' (more symbol)
      · exact (separated_sides (ready'.of_passed moves) admitted).after _
      · intro same later heeded
        rw [same.symbol, if_neg symbol]
        exact (separated_follows lawful calm pace later (ready'.of_passed moves) heeded
          admitted).after (same.leaf next "" "" sep false).any

omit lawful calm pace ready in
theorem Matches.resumes {item : Expr} {closers : List String} (same : p.Matches s s') :
    resumes p.d item closers s' = resumes p.c item closers s := by
  rw [Parser.resumes, Parser.resumes, same.atListEnd, same.newline, same.canStart rel,
    same.isKeyword]

omit lawful calm pace rel ready in
private theorem resumes_of_isEnd {c : Context} {item : Expr} {closers : List String}
    (ended : s.token.isEnd = true) : resumes c item closers s = true := by
  rw [resumes, State.atListEnd, ended]
  rfl

omit lawful calm pace rel ready in
private theorem consumeUntil_succ (c : Context) (stop : State → Bool) (k : Nat) (s : State) :
    consumeUntil c stop (k + 1) s =
      if stop s then ([], s)
      else ((s.consumeAny c).1 ++ (consumeUntil c stop k (s.moved c)).1,
        (consumeUntil c stop k (s.moved c)).2) := rfl

omit lawful calm pace rel ready in
private theorem consumeUntil_of_stop {c : Context} {stop : State → Bool} (k : Nat)
    (stops : stop s = true) : consumeUntil c stop k s = ([], s) := by
  cases k with
  | zero => rfl
  | succ k => rw [consumeUntil_succ, if_pos stops]

omit calm pace rel ready in
/-- Tokens are taken alike, as many as there are up to where the list goes on. -/
theorem consumeUntil_follows {item : Expr} {closers : List String} {k k' : Nat}
    (rel : p.Rel s s') (ready : Ready p.c o s) (enough : p.c.src.size - s.token.start ≤ k)
    (enough' : p.other.size - s'.token.start ≤ k')
    (heeds : p.Heeds (consumeUntil p.c (resumes p.c item closers) k s).2) :
    p.Likes "" "" (consumeUntil p.c (resumes p.c item closers) k s).1
        (consumeUntil p.d (resumes p.d item closers) k' s').1 ∧
      p.Rel (consumeUntil p.c (resumes p.c item closers) k s).2
        (consumeUntil p.d (resumes p.d item closers) k' s').2 := by
  -- Where the first parse stops, the second one does.
  have stopped {s s' : State} (rel : p.Rel s s') (heeds : p.Heeds s)
      (stops : resumes p.c item closers s = true) (k' : Nat) :
      consumeUntil p.d (resumes p.d item closers) k' s' = ([], s') := by
    apply consumeUntil_of_stop
    rcases lawful.meet rel heeds with same | apart
    · rw [same.resumes rel, stops]
    · exact resumes_of_isEnd apart.ended
  induction k generalizing s s' k' with
  | zero =>
      obtain ⟨frames, stands, _⟩ := rel.beside
      have inside := stands.reached.start_le
      have ended := stands.reached.isEnd_iff.mpr (by omega)
      rw [stopped rel heeds (resumes_of_isEnd ended)]
      exact ⟨.nil, rel⟩
  | succ k ih =>
      rw [consumeUntil_succ] at heeds ⊢
      cases stops : resumes p.c item closers s with
      | true =>
          rw [stops] at heeds
          simp only [if_true] at heeds ⊢
          rw [stopped rel heeds stops]
          exact ⟨.nil, rel⟩
      | false =>
          rw [stops] at heeds
          simp only [Bool.false_eq_true, if_false] at heeds ⊢
          have more := isEnd_of_resumes s stops
          obtain ⟨passed, moves⟩ := ready.passed_moved more
          have ready' := ready.of_passed passed
          have heeded := lawful.back (ready'.passed
            (consumeUntil_built k (@isEnd_of_resumes p.c item closers) ready')) heeds
          have same : p.Matches s s' := by
            rcases lawful.meet rel (lawful.back passed heeded) with same | apart
            · exact same
            · exact absurd heeded (apart.stuck _ passed moves)
          have next := rel.moved lawful same more heeded
          obtain ⟨frames, stands, stands', _⟩ := next.beside
          obtain ⟨_, before, before', _⟩ := rel.beside
          have ahead := stands.prevEnd_le_start
          have ahead' := stands'.prevEnd_le_start
          have start : s'.token.start < s'.token.stop ∧ s'.token.start < p.other.size :=
            before'.reached.start_lt (same.isEnd.trans more)
          rw [before'.moved.2.1] at ahead'
          obtain ⟨k', rfl⟩ : ∃ j, k' = j + 1 := ⟨k' - 1, by omega⟩
          have less : p.other.size - (s'.moved p.d).token.start ≤ k' := by omega
          obtain ⟨likes, last⟩ := ih next ready' (by omega) less heeds
          rw [consumeUntil_succ, same.resumes rel, stops]
          exact ⟨(same.leafAny rel).append likes, last⟩

omit calm pace in
theorem skipStatement_follows {item : Expr} {closers : List String}
    (more : s.token.isEnd = false)
    (heeds : p.Heeds (skipStatement p.c item closers s).2) :
    p.Like "" "" (skipStatement p.c item closers s).1 (skipStatement p.d item closers s').1 ∧
      p.Rel (skipStatement p.c item closers s).2 (skipStatement p.d item closers s').2 := by
  obtain ⟨passed, moves⟩ := ready.passed_moved more
  have ready' := ready.of_passed passed
  have rest := consumeUntil_built p.c.src.size (@isEnd_of_resumes p.c item closers) ready'
  have logged := (ready'.next rest).log (.unexpected
    ((s.consumeAny p.c).1 ++ (consumeUntil p.c (resumes p.c item closers) p.c.src.size
      (s.moved p.c)).1).length
    (consumeUntil p.c (resumes p.c item closers) p.c.src.size (s.moved p.c)).2.token)
  have heeded := lawful.back ((ready'.next rest).passed logged) heeds
  have heededMoved := lawful.back (ready'.passed rest) heeded
  have same : p.Matches s s' := by
    rcases lawful.meet rel (lawful.back passed heededMoved) with same | apart
    · exact same
    · exact absurd heededMoved (apart.stuck _ passed moves)
  have few : p.other.size - (s'.moved p.d).token.start ≤ p.other.size := Nat.sub_le _ _
  obtain ⟨likes, last⟩ := consumeUntil_follows lawful (rel.moved lawful same more heededMoved)
    ready' (Nat.sub_le _ _) few heeded
  exact ⟨((same.leafAny rel).append likes).finish last.prevEnd_eq errorKind "" "", last.log _ _⟩

omit lawful calm pace rel ready in
theorem Likes.markStatement {xs ys : List Item} (likes : p.Likes f g xs ys)
    (before : s'.atBase = s.atBase) (after : r'.atBase = r.atBase) :
    p.Likes f g (Parser.markStatement s r xs) (Parser.markStatement s' r' ys) := by
  unfold Parser.markStatement
  rw [before, after]
  cases likes with
  | nil => exact .nil
  | cons like rest =>
      cases rest with
      | nil =>
          simp only []
          split
          · exact .single (like.asStatement _ _)
          · exact .single like
      | cons next more => exact .cons like (.cons next more)

omit lawful calm pace rel ready in
theorem reuse?_of_empty {c : Context} {field : String} (fresh : s.reuse = .empty) :
    reuse? c field s = none := by
  unfold reuse?
  split
  · rfl
  · rw [fresh]
    rfl

omit lawful calm pace rel in
private theorem statements_moves {field : String} {item : Expr} {closers : List String}
    {items : List Item}
    (admitted : p.c.table.admits o p.c.speculating (.stmts field item closers) = true)
    (going : s.atListEnd closers = false)
    (ran : run n p.c (.statements field item closers) s = .done items r) :
    s.token.start < r.prevEnd := by
  have passed := run_passed ready (.statements field item closers) admitted ran
  have ended := atListEnd_of_statements ran
  obtain ⟨_, _, ⟨reach, trace, _, rfl⟩ | ⟨moved, _⟩⟩ := passed.stands
  · change s.atListEnd closers = true at ended
    rw [ended] at going
    contradiction
  · exact moved

private theorem statement_follows {field : String} {item : Expr} {closers : List String}
    (more : s.token.isEnd = false) (pending : s.pending = []) (pending' : s'.pending = [])
    (same : p.Matches s s')
    (admitted : p.c.table.admits o p.c.speculating (.stmts field item closers) = true) :
    p.Follows field field
      (match reuse? p.c field s with
        | some (.error v) => .halted v
        | some (.ok (taken, next)) =>
            (run n p.c (.statements field item closers) next).after [taken]
        | none =>
            if s.canStart p.c item then
              (run n p.c (.expr item field) s).bind fun items next =>
                (run n p.c (.statements field item closers) next).after
                  (markStatement s next items)
            else if p.c.speculating then .failed s
            else
              (run n p.c (.statements field item closers)
                (skipStatement p.c item closers s).2).after [(skipStatement p.c item closers s).1])
      (match reuse? p.d field s' with
        | some (.error v) => .halted v
        | some (.ok (taken, next)) =>
            (run m p.d (.statements field item closers) next).after [taken]
        | none =>
            if s'.canStart p.d item then
              (run m p.d (.expr item field) s').bind fun items next =>
                (run m p.d (.statements field item closers) next).after
                  (markStatement s' next items)
            else if p.d.speculating then .failed s'
            else
              (run m p.d (.statements field item closers)
                (skipStatement p.d item closers s').2).after
                [(skipStatement p.d item closers s').1]) := by
  have parts := admitted
  simp only [Table.admits, Bool.and_eq_true, Bool.not_eq_true'] at parts
  obtain ⟨⟨⟨_, trial⟩, statement⟩, inner⟩ := parts
  have rest {r : State} (ready : Ready p.c o r) :
      Sides p.c r (run n p.c (.statements field item closers) r) :=
    run_sides ready (.statements field item closers) admitted
  rw [reuse?_of_empty rel.fresh]
  cases offered : reuse? p.c field s with
  | some found =>
      obtain ⟨_, base, sub, left, taken, fits, made⟩ := ready.adopts offered
      rw [made]
      have built : Built p.c s [⟨field, s.token.start, sub⟩] (s.behind p.c sub left) :=
        .reuse trial base pending taken fits field
      have ready' := ready.next built
      have whole : p.c.Statement item := statement_of_isStatement lawful.law statement
      simp only []
      apply Follows.heed lawful ((rest ready').after _)
      intro heeded
      obtain ⟨starts, outcome⟩ := (calm trial).adopted m field rel ready pending pending' base
        whole taken heeded
      rw [if_pos starts]
      rcases outcome with ⟨v, cut⟩ | ⟨it, r', ran, after, like, next⟩
      · rw [cut]
        exact Or.inl ⟨v, rfl⟩
      · have marked : markStatement s' r' [it] =
            [{ it with node := it.node.asStatement (r'.lookahead it.stop) }] := by
          rw [markStatement, rel.atBase, base, after]
          rfl
        rw [ran, Outcome.bind_done, marked]
        exact (pace (.statements field item closers) ready' admitted next).after (.single like)
  | none =>
      simp only []
      cases starts : s.canStart p.c item with
      | true =>
          rw [same.canStart rel, starts]
          simp only [if_true]
          have onward (items : List Item) (r : State)
              (ran : run n p.c (.expr item field) s = .done items r) : Ready p.c o r :=
            ready.of_passed (run_passed ready (.expr item field) inner ran)
          refine (pace (.expr item) ready inner rel).bind lawful ?_ ?_
          · exact fun items r ran => (rest (onward items r ran)).after _
          · exact fun items r items' r' ran likes next =>
              (pace (.statements field item closers) (onward items r ran) admitted next).after
                (likes.markStatement rel.atBase next.atBase)
      | false =>
          rw [same.canStart rel, starts]
          have trial' : p.d.speculating = false := trial
          simp only [Bool.false_eq_true, if_false, trial, trial']
          have built := (@skipStatement_built p.c o s ready item closers more pending).1
          have ready' := ready.next built
          apply Follows.heed lawful ((rest ready').after _)
          intro heeded
          obtain ⟨like, next⟩ := skipStatement_follows lawful rel ready more heeded
          exact (pace (.statements field item closers) ready' admitted next).after
            (.single like.any)

theorem statements_follows {field : String} {item : Expr} {closers : List String}
    (heeds : p.Heeds s)
    (admitted : p.c.table.admits o p.c.speculating (.stmts field item closers) = true) :
    p.Follows f g (run (n + 1) p.c (.statements field item closers) s)
      (run (m + 1) p.d (.statements field item closers) s') := by
  cases going : s.atListEnd closers with
  | true =>
      have ended : s'.atListEnd closers = true := by
        rcases lawful.meet rel heeds with same | apart
        · rw [same.atListEnd, going]
        · rw [State.atListEnd, apart.ended]
          rfl
      rw [run, step, statements, going, run, step, statements, ended]
      exact .done .nil rel
  | false =>
      rcases lawful.meet rel heeds with same | apart
      · have going' : s'.atListEnd closers = false := same.atListEnd closers ▸ going
        have more : s.token.isEnd = false := by
          rw [State.atListEnd, Bool.or_eq_false_iff] at going
          exact going.1
        have ready' : Ready p.c o { s with pending := [] } := by
          obtain ⟨frames, stands⟩ := ready.stands
          exact ⟨ready.law, ⟨frames, stands.flush⟩, ready.fit⟩
        rw [run, step, statements, going, run, step, statements, going']
        refine Follows.any (h := field) (Follows.after ?_ same.pending.any)
        exact statement_follows lawful calm pace rel.flush ready' more rfl rfl
          { same with pending := .nil } admitted
      · refine .of_parts apart (run_sides ready (.statements field item closers) admitted) ?_
        exact fun items r ran => statements_moves ready admitted going ran

omit lawful calm pace ready in
theorem Likes.close {xs ys : List Item} (likes : p.Likes "" "" xs ys) (kind : String) :
    p.Likes "" "" (closeSuffixes s kind xs) (closeSuffixes s' kind ys) := by
  unfold closeSuffixes
  split
  · exact likes
  · exact .single (likes.finish rel.prevEnd_eq kind "" "")

omit calm in
theorem suffixes_follows {many : Bool} {all : List (Suffix Expr)} {kind : String}
    {xs ys : List Item} {head : Expr} (heeds : p.Heeds s) (likes : p.Likes "" "" xs ys)
    (admitted : p.c.table.admits o p.c.speculating (.suffixed head many all) = true) :
    p.Follows f g (suffixes (run n) p.c many all kind xs f s)
      (suffixes (run m) p.d many all kind ys g s') := by
  have parts := admitted
  simp only [Table.admits, Bool.and_eq_true] at parts
  unfold suffixes
  cases found : all.find? fun x => s.canStart p.c x.tail with
  | none =>
      have none : (all.find? fun x => s'.canStart p.d x.tail) = none := by
        rw [List.find?_eq_none] at found ⊢
        intro x member
        obtain ⟨_, _, inner, _⟩ := of_mem_tails parts.2 member
        rw [lawful.cold rel heeds inner (Bool.eq_false_iff.mpr (found x member))]
        exact Bool.false_ne_true
      rw [none]
      exact .done (likes.close rel kind).withField rel
  | some x =>
      have starts := List.find?_some found
      obtain ⟨proper, leads, inner, _⟩ := of_mem_tails parts.2 (List.mem_of_find?_eq_some found)
      have onward (more : List Item) (r : State)
          (ran : run n p.c (.expr x.tail "") s = .done more r) : Ready p.c o r :=
        ready.of_passed (run_passed ready (.expr x.tail "") inner ran)
      have again (front more : List Item) (r : State)
          (ran : run n p.c (.expr x.tail "") s = .done more r) :
          (Task.suffixes many all x.kind (front ++ more) f).Admitted p.c.table o
            p.c.speculating := by
        have opens := (run_makes ready (.expr x.tail "") inner ran).2 ⟨leads, starts⟩
        exact ⟨⟨head, admitted⟩, fun _ =>
          ⟨fun none => opens.some (List.append_eq_nil_iff.mp none).2, proper⟩⟩
      have sides (front more : List Item) (r : State)
          (ran : run n p.c (.expr x.tail "") s = .done more r) :
          Sides p.c r (if many then run n p.c (.suffixes many all x.kind (front ++ more) f) r
            else .done (withField f (closeSuffixes r x.kind (front ++ more))) r) := by
        split
        · exact run_sides (onward more r ran) _ (again front more r ran)
        · exact (onward more r ran).passed_self
      refine lawful.hot rel heeds ready inner leads starts ?_ ?_
      · exact fun more r _ ran => sides _ more r ran
      · intro same
        have alike : (fun x : Suffix Expr => s'.canStart p.d x.tail) =
            fun x => s.canStart p.c x.tail := funext fun x => same.canStart rel x.tail
        rw [alike, found]
        refine (pace (.expr x.tail) ready inner rel).bind lawful ?_ ?_
        · exact fun more r ran => sides _ more r ran
        · intro more r more' r' ran tail next
          have front : p.Likes "" ""
              (if kind = x.kind && kind != "" then xs
                else withField x.headField (closeSuffixes s kind xs))
              (if kind = x.kind && kind != "" then ys
                else withField x.headField (closeSuffixes s' kind ys)) := by
            split
            · exact likes
            · exact (likes.close rel kind).withField.any
          split
          · exact pace (.suffixes many all x.kind (front.append tail)) (onward more r ran)
              (again _ more r ran) next
          · exact .done ((front.append tail).close next x.kind).withField next

omit calm in
theorem operand_follows {kind : String} {part : Expr} {ops : List (String × UInt8)} {least : UInt8}
    (admitted : p.c.table.admits o p.c.speculating (.binary kind part ops) = true) :
    p.Follows f g (step (run n) p.c (.operand kind part ops least f) s)
      (step (run m) p.d (.operand kind part ops least g) s') := by
  have parts := admitted
  simp only [Table.admits, Bool.and_eq_true] at parts
  have onward (left : List Item) (r : State) (ran : run n p.c (.expr part "") s = .done left r) :
      Ready p.c o r := ready.of_passed (run_passed ready (.expr part "") parts.2 ran)
  refine (pace (.expr part) ready parts.2 rel).bind lawful ?_ ?_
  · exact fun left r ran =>
      run_sides (onward left r ran) (.operators kind part ops least left f) admitted
  · exact fun left r left' r' ran likes next =>
      pace (.operators kind part ops least likes) (onward left r ran) admitted next

omit calm in
theorem operators_follows {kind : String} {part : Expr} {ops : List (String × UInt8)}
    {least : UInt8} {xs ys : List Item} (heeds : p.Heeds s) (likes : p.Likes "" "" xs ys)
    (admitted : p.c.table.admits o p.c.speculating (.binary kind part ops) = true) :
    p.Follows f g (operators (run n) p.c kind part ops least xs f s)
      (operators (run m) p.d kind part ops least ys g s') := by
  have past (ended : s'.token.isEnd = true) : power? ops s' = none := by
    rw [Token.isEnd, beq_iff_eq] at ended
    rw [power?, ended]
    rfl
  have alike (same : p.Matches s s') : power? ops s' = power? ops s := by
    rw [power?, power?, same.kind, same.lit]
  unfold operators
  cases found : power? ops s with
  | none =>
      have none : power? ops s' = none := by
        rcases lawful.meet rel heeds with same | apart
        · rw [alike same, found]
        · exact past apart.ended
      rw [none]
      exact .done likes.withField rel
  | some power =>
      simp only []
      by_cases loose : power < least
      · rw [if_pos loose]
        rcases lawful.meet rel heeds with same | apart
        · rw [alike same, found]
          simp only [if_pos loose]
          exact .done likes.withField rel
        · rw [past apart.ended]
          exact .done likes.withField rel
      · rw [if_neg loose]
        have more : s.token.isEnd = false := by
          unfold power? at found
          split at found
          next punctuation =>
            rw [Token.isEnd, beq_iff_eq.mp punctuation]
            rfl
          next => contradiction
        have ready' := ready.of_passed (ready.passed_moved more).1
        have onward (right : List Item) (r : State)
            (ran : run n p.c (.operand kind part ops (power + 1) "right") (s.moved p.c) =
              .done right r) : Ready p.c o r :=
          ready'.of_passed
            (run_passed ready' (.operand kind part ops (power + 1) "right") admitted ran)
        have sides (right : List Item) (r : State)
            (ran : run n p.c (.operand kind part ops (power + 1) "right") (s.moved p.c) =
              .done right r) :
            Sides p.c r (run n p.c (.operators kind part ops least
              [r.finish kind "" (withField "left" xs ++
                (s.consume p.c "operator" s.token.symbol false).1 ++ right)] f) r) :=
          run_sides (onward right r ran) (.operators kind part ops least _ f) admitted
        apply lawful.consumes rel heeds ready more
        · exact (run_sides ready' (.operand kind part ops (power + 1) "right") admitted).bind sides
        · intro same next _
          rw [alike same, found]
          simp only [if_neg loose]
          refine (pace (.operand kind part ops (power + 1)) ready' admitted next).bind lawful sides ?_
          intro right r right' r' ran tail last
          have left : p.Likes "" "" (withField "left" xs) (withField "left" ys) := likes.withField.any
          have leaf := same.leaf rel "operator" "operator" s.token.symbol false
          rw [← same.symbol] at leaf
          have node := ((left.append leaf.any).append tail.any).finish last.prevEnd_eq kind "" ""
          rw [← same.symbol]
          exact pace (.operators kind part ops least (.single node)) (onward right r ran) admitted
            last

end

/-- Every task is followed, however deep. -/
theorem follows (lawful : p.Lawful o) (calm : p.c.speculating = false → p.Calm o) (n m : Nat) :
    p.Pace o n m := by
  induction n generalizing m with
  | zero => exact fun _ _ _ _ => Or.inr trivial
  | succ n ih =>
      intro f g task task' s s' alike ready admitted rel
      cases m with
      | zero => exact Or.inl ⟨_, rfl⟩
      | succ m =>
          apply Follows.heed lawful (run_sides ready task admitted)
          intro heeds
          cases alike with
          | expr e => exact expression_follows lawful calm (ih m) rel ready heeds admitted
          | copies body min count =>
              exact copies_follows lawful calm (ih m) rel ready heeds admitted
          | elements elem sep trailing =>
              exact elements_follows lawful calm (ih m) rel ready admitted
          | statements field item closers =>
              exact statements_follows lawful calm (ih m) rel ready heeds admitted
          | suffixes many all kind likes =>
              obtain ⟨⟨head, inner⟩, _⟩ := admitted
              exact suffixes_follows lawful (ih m) rel ready heeds likes inner
          | operand kind part ops power => exact operand_follows lawful (ih m) rel ready admitted
          | operators kind part ops power likes =>
              exact operators_follows lawful (ih m) rel ready heeds likes admitted

end MqTree.Parser.Track
