import MqTree.Proofs.Parser.Derivation

namespace MqTree.Parser

/-! How many tokens may be skipped makes no difference to a parse that skips
none. -/

variable {c : Context} {window : Nat} {s r : State} {items : List Item}

section

variable (c : Context) (window : Nat)

theorem State.advanceUpTo_window (n : Nat) (s : State) :
    s.advanceUpTo { c with window } n = s.advanceUpTo c n := by
  induction n generalizing s with
  | zero => rfl
  | succ n ih => rw [State.advanceUpTo_succ, State.advanceUpTo_succ, ih]

theorem State.advance_window (s : State) : s.advance { c with window } = s.advance c :=
  State.advanceUpTo_window c window _ s

theorem State.consume_window (s : State) (field kind : String) (named : Bool) :
    s.consume { c with window } field kind named = s.consume c field kind named := by
  simp only [State.consume, State.advance_window]

theorem State.canStart_window (s : State) : s.canStart { c with window } = s.canStart c := by
  have like : LooksLike c s { c with window } s := ⟨rfl, rfl, fun _ => rfl, rfl, rfl⟩
  funext e
  exact like.canStart e

theorem reuse?_window (field : String) (s : State) :
    reuse? { c with window } field s = reuse? c field s := by
  simp only [reuse?, State.advance_window]

end

/-- The same outcome, unless there is an error in it. Attempts come out the same
in any case. -/
def Outcome.Echoes (trial : Bool) (o o' : Outcome) : Prop :=
  o' = o ∨ trial = false ∧ ∀ items r, o = .done items r → ¬Clean items

namespace Outcome.Echoes

variable {trial : Bool} {o o' : Outcome}

theorem refl (trial : Bool) (o : Outcome) : o.Echoes trial o := Or.inl rfl

theorem bind {k k' : List Item → State → Outcome} (echoes : o.Echoes trial o')
    (next : ∀ items q, (k items q).Echoes trial (k' items q))
    (before : ∀ {items q more r}, k items q = .done more r → Clean more → Clean items) :
    (o.bind k).Echoes trial (o'.bind k') := by
  rcases echoes with rfl | ⟨calm, flawed⟩
  · cases o' with
    | done items q => exact next items q
    | failed q => exact refl trial _
    | halted v => exact refl trial _
  · refine Or.inr ⟨calm, fun more r done clean => ?_⟩
    obtain ⟨items, q, first, second⟩ := bind_eq_done done
    exact flawed items q first (before second clean)

theorem after (echoes : o.Echoes trial o') (front : List Item) :
    (o.after front).Echoes trial (o'.after front) := by
  refine echoes.bind (fun items q => refl trial _) fun done clean => ?_
  rw [← (Outcome.done.inj done).1] at clean
  exact clean.right

theorem andThen {k k' : State → Outcome} (echoes : o.Echoes trial o')
    (next : ∀ q, (k q).Echoes trial (k' q)) : (o.andThen k).Echoes trial (o'.andThen k') := by
  refine echoes.bind (fun items q => (next q).after items) fun done clean => ?_
  obtain ⟨more, _, made⟩ := after_eq_done done
  rw [made] at clean
  exact clean.left

end Outcome.Echoes

theorem clean_given {n : Nat} {task : Task} (done : run n c task s = .done items r)
    (clean : Clean items) : Clean (Job.task task).given := by
  induction n generalizing task s items r with
  | zero => contradiction
  | succ n ih =>
      cases task with
      | suffixes many all kind built field =>
          rw [run, step, suffixes] at done
          split at done
          · rw [← (Outcome.done.inj done).1] at clean
            exact clean_closeSuffixes ((clean_withField _).mp clean)
          · obtain ⟨more, q, _, next⟩ := Outcome.bind_eq_done done
            split at next
            · exact clean_gather (ih next clean).left
            · rw [← (Outcome.done.inj next).1] at clean
              have closed := clean_closeSuffixes ((clean_withField _).mp clean)
              exact clean_gather closed.left
      | operators kind operand ops least left field =>
          rw [run, step, operators] at done
          split at done
          · rw [← (Outcome.done.inj done).1] at clean
            exact (clean_withField _).mp clean
          · split at done
            · rw [← (Outcome.done.inj done).1] at clean
              exact (clean_withField _).mp clean
            · obtain ⟨right, q, _, next⟩ := Outcome.bind_eq_done done
              have joined := (clean_finish.mp (ih next clean)).2
              exact (clean_withField _).mp joined.left.left
      | _ => exact fun it none => absurd none List.not_mem_nil

structure Indifferent (c : Context) (window : Nat) (runner : Runner) : Prop where
  echoes : ∀ trial task s,
    (runner { c with speculating := trial } task s).Echoes trial
      (runner { c with window, speculating := trial } task s)
  given : ∀ {trial task s items r}, runner { c with speculating := trial } task s = .done items r →
    Clean items → Clean (Job.task task).given

section

variable {runner : Runner} {trial : Bool} (indifferent : Indifferent c window runner)

include indifferent

omit indifferent in
theorem recover_echoes (e : Expr) (field : String) (maySkip : Bool) (s : State) :
    (recover runner { c with speculating := trial } e field maySkip s).Echoes trial
      (recover runner { c with window, speculating := trial } e field maySkip s) := by
  cases trial with
  | true => exact .refl true _
  | false =>
      refine Or.inr ⟨rfl, fun items r done clean => ?_⟩
      have noPlace {q : State} (placed : placeholder { c with speculating := false } e field q =
          .done items r) : False := by
        unfold placeholder at placed
        split at placed
        · contradiction
        · rw [← (Outcome.done.inj placed).1] at clean
          exact Bool.noConfusion (clean _ (List.mem_singleton_self _))
      simp only [recover, Bool.false_eq_true, if_false] at done
      split at done
      · split at done
        next error next found =>
          obtain ⟨more, _, made⟩ := Outcome.after_eq_done done
          rw [made] at clean
          unfold skipTo at found
          split at found
          next skipped count last result =>
            rw [← Option.some.inj (Prod.mk.inj found).1] at clean
            exact (clean_finish.mp clean.left).1 rfl
          next => simp at found
        next => exact noPlace done
      · exact noPlace done

theorem sequence_echoes (field : String) (es : List Expr) (s : State) :
    (sequence runner { c with speculating := trial } field es s).Echoes trial
      (sequence runner { c with window, speculating := trial } field es s) := by
  induction es generalizing s with
  | nil => exact .refl trial _
  | cons e es ih => exact (indifferent.echoes trial (.expr e field) s).andThen ih

theorem attempt_echoes (field : String) (alts : List Expr) (s : State) :
    (attempt runner { c with speculating := trial } field alts s).Echoes trial
      (attempt runner { c with window, speculating := trial } field alts s) := by
  induction alts generalizing s with
  | nil => exact .refl trial _
  | cons alt rest ih =>
      cases rest with
      | nil => exact indifferent.echoes trial (.expr alt field) s
      | cons next rest =>
          have tried : runner { c with window, speculating := true } (.expr alt field) s =
              runner { c with speculating := true } (.expr alt field) s :=
            (indifferent.echoes true (.expr alt field) s).resolve_right
              fun calm => Bool.noConfusion calm.1
          simp only [attempt, State.canStart_window { c with speculating := trial } window, tried]
          split
          · split
            · exact ih _
            · exact .refl trial _
          · exact ih _

theorem reference_echoes (name field : String) (s : State) :
    (reference runner { c with speculating := trial } name field s).Echoes trial
      (reference runner { c with window, speculating := trial } name field s) := by
  simp only [reference, State.canStart_window { c with speculating := trial } window]
  split
  · exact recover_echoes (.ref name) field true s
  · split
    · exact .refl trial _
    · split
      · exact indifferent.echoes trial _ s
      · refine (indifferent.echoes trial _ s).bind (fun children q => .refl trial _) ?_
        intro children q more r done clean
        rw [← (Outcome.done.inj done).1] at clean
        exact (clean_finish.mp clean).2

theorem expression_echoes (e : Expr) (field : String) (s : State) :
    (expression runner { c with speculating := trial } field e s).Echoes trial
      (expression runner { c with window, speculating := trial } field e s) := by
  have recovers (e : Expr) (maySkip : Bool) :
      (recover runner { c with speculating := trial } e field maySkip s).Echoes trial
        (recover runner { c with window, speculating := trial } e field maySkip s) :=
    recover_echoes e field maySkip s
  have runs (task : Task) (q : State) := indifferent.echoes trial task q
  have starts := State.canStart_window { c with speculating := trial } window s
  have consumes := State.consume_window { c with speculating := trial } window s
  have accepts (words : List String) : s.accepts { c with window, speculating := trial } words =
      s.accepts { c with speculating := trial } words := rfl
  cases e with
  | tok sym words =>
      simp only [expression, consumes, accepts]
      split
      · exact .refl trial _
      · exact recovers _ true
  | leaf kind sym =>
      simp only [expression, consumes]
      split
      · exact .refl trial _
      · exact recovers _ true
  | ref name => exact reference_echoes indifferent name field s
  | seq es => exact sequence_echoes indifferent field es s
  | choice alts =>
      rw [expression, expression, starts]
      split
      · exact runs _ s
      · exact recovers _ true
  | ordered alts => exact attempt_echoes indifferent field alts s
  | opt body =>
      simp only [expression, starts]
      split
      · exact runs _ s
      · exact .refl trial _
  | rep body min => exact runs _ s
  | sepBy elem sep trailing =>
      simp only [expression, starts]
      split
      · exact runs _ s
      · exact .refl trial _
  | field name body => exact runs _ s
  | immediate body | sameLine body =>
      simp only [expression, starts]
      split
      · exact runs _ s
      · exact recovers _ false
  | stmts name item closers => exact runs _ s
  | suffixed head many suffixes =>
      refine (runs (.expr head "") s).bind (fun built q => runs _ q) fun done clean => ?_
      exact indifferent.given done clean
  | binary kind operand ops => exact runs _ s
  | unary kind ops operand =>
      simp only [expression, consumes]
      split
      · refine (runs _ _).bind (fun more q => .refl trial _) fun done clean => ?_
        rw [← (Outcome.done.inj done).1] at clean
        exact (clean_finish.mp clean).2.right
      · exact runs _ s

theorem copies_echoes (body : Expr) (min : Int) (count : Nat) (field : String) (s : State) :
    (copies runner { c with speculating := trial } body min count field s).Echoes trial
      (copies runner { c with window, speculating := trial } body min count field s) := by
  simp only [copies, State.canStart_window { c with speculating := trial } window]
  split
  · exact (indifferent.echoes trial _ s).andThen (indifferent.echoes trial _)
  · split
    · exact .refl trial _
    · exact (recover_echoes body field true s).andThen (indifferent.echoes trial _)

theorem elements_echoes (elem : Expr) (sep : String) (trailing : Bool) (field : String)
    (s : State) :
    (elements runner { c with speculating := trial } elem sep trailing field s).Echoes trial
      (elements runner { c with window, speculating := trial } elem sep trailing field s) := by
  refine (indifferent.echoes trial (.expr elem field) s).andThen fun q => ?_
  simp only [State.canStart_window { c with speculating := trial } window,
    State.consume_window { c with speculating := trial } window]
  split
  · exact .refl trial _
  · refine Outcome.Echoes.after ?_ _
    split
    · exact indifferent.echoes trial _ _
    · split
      · exact .refl trial _
      · exact recover_echoes elem field false _

theorem statements_echoes (field : String) (item : Expr) (closers : List String) (s : State) :
    (statements runner { c with speculating := trial } field item closers s).Echoes trial
      (statements runner { c with window, speculating := trial } field item closers s) := by
  have rest := indifferent.echoes trial (.statements field item closers)
  simp only [statements, State.canStart_window { c with speculating := trial } window,
    reuse?_window { c with speculating := trial } window]
  split
  · exact .refl trial _
  · refine Outcome.Echoes.after ?_ _
    split
    · exact .refl trial _
    · exact (rest _).after _
    · split
      · refine (indifferent.echoes trial _ _).bind (fun items q => (rest q).after _) ?_
        intro items q more r done clean
        obtain ⟨_, _, made⟩ := Outcome.after_eq_done done
        rw [made] at clean
        exact clean_markStatement.mp clean.left
      · cases trial with
        | true => exact .refl true _
        | false =>
            -- Tokens that start no statement are an error.
            refine Or.inr ⟨rfl, fun items r done clean => ?_⟩
            obtain ⟨_, _, made⟩ := Outcome.after_eq_done done
            rw [made] at clean
            have error := clean.left
            rw [show (skipStatement _ item closers _).1 = State.finish _ errorKind "" _ from rfl]
              at error
            exact (clean_finish.mp error).1 rfl

theorem suffixes_echoes (many : Bool) (all : List (Suffix Expr)) (kind : String)
    (built : List Item) (field : String) (s : State) :
    (suffixes runner { c with speculating := trial } many all kind built field s).Echoes trial
      (suffixes runner { c with window, speculating := trial } many all kind built field s) := by
  simp only [suffixes, State.canStart_window { c with speculating := trial } window]
  split
  · exact .refl trial _
  · refine (indifferent.echoes trial _ s).bind (fun more q => ?_) fun done clean => ?_
    · split
      · exact indifferent.echoes trial _ q
      · exact .refl trial _
    · split at done
      · exact (indifferent.given done clean).right
      · rw [← (Outcome.done.inj done).1] at clean
        have closed := clean_closeSuffixes ((clean_withField _).mp clean)
        exact closed.right

theorem operators_echoes (kind : String) (operand : Expr) (ops : List (String × UInt8))
    (least : UInt8) (left : List Item) (field : String) (s : State) :
    (operators runner { c with speculating := trial } kind operand ops least left field s).Echoes
      trial
      (operators runner { c with window, speculating := trial } kind operand ops least left field
        s) := by
  simp only [operators, State.consume_window { c with speculating := trial } window]
  split
  · exact .refl trial _
  · split
    · exact .refl trial _
    · refine (indifferent.echoes trial _ _).bind (fun right q => indifferent.echoes trial _ q) ?_
      intro right q more r done clean
      have joined := (clean_finish.mp (indifferent.given done clean)).2
      exact joined.right

end

theorem run_indifferent (c : Context) (window n : Nat) : Indifferent c window (run n) := by
  induction n with
  | zero => exact ⟨fun trial task s => .refl trial _, clean_given⟩
  | succ n ih =>
      refine ⟨fun trial task s => ?_, clean_given⟩
      cases task with
      | expr e field => exact expression_echoes ih e field s
      | copies body min count field => exact copies_echoes ih body min count field s
      | elements elem sep trailing field => exact elements_echoes ih elem sep trailing field s
      | statements field item closers => exact statements_echoes ih field item closers s
      | suffixes many all kind built field =>
          exact suffixes_echoes ih many all kind built field s
      | operand kind operand ops least field =>
          refine (ih.echoes trial (.expr operand "") s).bind (fun left q => ih.echoes trial _ q) ?_
          exact fun done clean => ih.given done clean
      | operators kind operand ops least left field =>
          exact operators_echoes ih kind operand ops least left field s

theorem ended_of_clean (clean : Clean (rootChildren c items s).1) :
    s.token.isEnd = true ∧ Clean items := by
  unfold rootChildren at clean
  split at clean
  next ended => exact ⟨ended, clean.left⟩
  next =>
    have error : Clean [State.finish _ errorKind "" _] :=
      clean.left.right
    exact absurd rfl (clean_finish.mp error).1

/-- A text without errors is parsed alike however many tokens may be skipped,
also where statements are taken over. -/
theorem build_window {index : ReuseIndex} {root : Subtree} {events : List Event}
    (calm : c.speculating = false) (built : build c index = .ok (root, events))
    (clean : root.hasError = false) (window : Nat) :
    build { c with window } index = .ok (root, events) := by
  have start : State.initial { c with window } index = State.initial c index :=
    State.advance_window c window _
  have echoes (task : Task) (s : State) := (run_indifferent c window (fuel c)).echoes false task s
  simp only [← calm] at echoes
  unfold build at built ⊢
  simp only [start]
  split at built
  · contradiction
  next rule found =>
    split at built
    · contradiction
    · contradiction
    next items last ran =>
      obtain ⟨rfl, _⟩ := Prod.mk.inj (Except.ok.inj built)
      obtain ⟨ended, whole⟩ :=
        ended_of_clean ((hasError_branch rule.nodeKind true _ 0 _).mp clean).2
      have again : run (fuel { c with window }) { c with window } (.expr rule.body "")
          (State.initial c index) = .done items last := by
        rcases echoes (.expr rule.body "") (State.initial c index) with same | ⟨_, flawed⟩
        · exact same.trans ran
        · exact absurd whole (flawed items last ran)
      simp only [again]
      rw [← built, rootChildren, rootChildren, if_pos ended, if_pos ended]

/-- The tree of a text without errors does not depend on how many tokens may be
skipped. -/
theorem parse_window_indifferent (first second : Nat) (text : Text) :
    ∃ tree, Parser.parse { window := first } text = .ok tree ∧
      (tree.hasError = false → Parser.parse { window := second } text = .ok tree) := by
  obtain ⟨items, last, parsed, _⟩ := parse_described first text
  have built := parsed.build_eq Mq.lawful
  refine ⟨_, parse_eq_of_build built, fun clean => ?_⟩
  exact parse_eq_of_build (p := { window := second }) (build_window rfl built clean second)

theorem parse_window_indifferent_let :
    ∃ tree, Parser.parse { window := 0 } (Text.ofString "let x = 1") = .ok tree ∧
      tree.hasError = false ∧
      Parser.parse { window := 7 } (Text.ofString "let x = 1") = .ok tree := by
  obtain ⟨tree, parsed, same⟩ := parse_window_indifferent 0 7 (Text.ofString "let x = 1")
  have computed : ((Parser.parse { window := 0 } (Text.ofString "let x = 1")).toOption.map
      Tree.hasError) = some false := by
    decide +kernel
  rw [parsed] at computed
  have clean : tree.hasError = false := Option.some.inj computed
  exact ⟨tree, parsed, clean, same clean⟩

end MqTree.Parser
