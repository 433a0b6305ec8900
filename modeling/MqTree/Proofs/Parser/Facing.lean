import MqTree.Proofs.Grammar.Parts
import MqTree.Proofs.Parser.Yields

namespace MqTree.Parser

/-! What the parser has in front of it at every step: a token of the text, the
comments before it, and the rest of the text behind it. -/

variable {c : Context} {s r q : State}

def IsComment (it : Item) : Prop := ∃ token : Token, token.kind = .comment ∧ it = commentItem token

structure Faces (c : Context) (s : State) : Prop where
  inside : s.lexer.offset ≤ c.src.size
  offset : s.lexer.offset = s.token.stop
  start_le_stop : s.token.start ≤ s.token.stop
  start_lt_stop : s.token.isEnd = false → s.token.start < s.token.stop
  ended : s.token.isEnd = true → s.token.start = c.src.size
  terminal : s.terminal = c.table.termId? s.token.symbol
  spells : s.token.kind.Spells s.token.lit
  comments : ∀ it ∈ s.pending, IsComment it

theorem isEnd_of_mark (mark : s.token.kind = .punctuation) :
    s.token.isEnd = false ∧ s.token.symbol = s.token.lit := by
  rw [Token.isEnd, Token.symbol, mark]
  exact ⟨rfl, rfl⟩

theorem Advances.faces (advances : Advances c s r) (inside : s.lexer.offset ≤ c.src.size)
    (comments : ∀ it ∈ s.pending, IsComment it) : Faces c r := by
  induction advances with
  | token s plain =>
      have within := Lexer.next_within inside
      refine ⟨?_, ?_, within.2.1, Lexer.next_lt inside, ?_, rfl, ?_, comments⟩
      · rw [Lexer.next_offset, ← Lexer.next_stop]
        exact within.2.2
      · rw [Lexer.next_offset, Lexer.next_stop]
      · rw [Lexer.next_start]
        exact (Lexer.next_isEnd_iff inside).mp
      · rw [Lexer.next_kind, Lexer.next_lit]
        exact Lexeme.read_spells c.src s.lexer.frames _
  | comment s kind rest ih =>
      have within := Lexer.next_within inside
      apply ih
      · rw [Lexer.next_offset, ← Lexer.next_stop]
        exact within.2.2
      · rw [List.forall_mem_append]
        exact ⟨comments, fun it member => ⟨_, kind, List.mem_singleton.mp member⟩⟩

namespace Faces

theorem initial (c : Context) (reuse : ReuseIndex) : Faces c (State.initial c reuse) :=
  (State.initial_advances c reuse).faces (Nat.zero_le _) fun _ none =>
    absurd none List.not_mem_nil

theorem moved (faces : Faces c s) : Faces c (s.moved c) :=
  (State.moved_advances faces.inside).faces faces.inside fun _ none =>
    absurd none List.not_mem_nil

theorem returns (faces : Faces c s) (returns : Returns s r) : Faces c r := by
  obtain ⟨reach, trace, rfl⟩ := returns
  exact { faces with }

theorem flush (faces : Faces c s) : Faces c { s with pending := [] } :=
  { faces with comments := fun _ none => absurd none List.not_mem_nil }

theorem stop_le_moved (faces : Faces c s) : s.token.stop ≤ (s.moved c).token.start := by
  have later := (State.moved_advances faces.inside).start_ge faces.inside
  rwa [faces.offset] at later

theorem start_lt_moved (faces : Faces c s) (more : s.token.isEnd = false) :
    s.token.start < (s.moved c).token.start :=
  Nat.lt_of_lt_of_le (faces.start_lt_stop more) faces.stop_le_moved

end Faces

def Raw (it : Item) : Prop :=
  IsComment it ∨ ∃ token : Token, token.kind.Spells token.lit ∧
    it = ⟨"", token.start, .ofToken token.symbol (isNamedSymbol token.symbol) token⟩

def Wrong (error : Item) : Prop :=
  ∃ last skipped, error = State.finish last errorKind "" skipped ∧ ∀ it ∈ skipped, Raw it

inductive Passes (c : Context) (P : State → Prop) : Nat → State → List Item → State → Prop
  | done (s : State) : Passes c P 0 s [] s
  | token {n : Nat} {s r : State} {items : List Item} (here : P s)
      (rest : Passes c P n (s.moved c) items r) :
      Passes c P (n + 1) s ((s.consumeAny c).1 ++ items) r

theorem passes_of_skipUpTo {e : Expr} {n count : Nat} {skipped all : List Item} {total : Nat}
    (found : skipUpTo c e n count skipped s = (some (all, total), r)) :
    ∃ m items, all = skipped ++ items ∧ 0 < m ∧ m ≤ n ∧
      Passes c (fun q => q.skippable = true) m s items r := by
  induction n generalizing s count skipped with
  | zero => simp [skipUpTo] at found
  | succ n ih =>
      rw [skipUpTo] at found
      split at found
      next skippable =>
        change (if (s.moved c).canStart c e then _ else _) = _ at found
        split at found
        · obtain ⟨made, rfl⟩ := Prod.mk.inj found
          obtain ⟨rfl, _⟩ := Prod.mk.inj (Option.some.inj made)
          refine ⟨1, (s.consumeAny c).1, rfl, Nat.one_pos, by omega, ?_⟩
          rw [← List.append_nil (s.consumeAny c).1]
          exact .token skippable (.done _)
        · obtain ⟨m, items, rfl, _, limit, passes⟩ := ih found
          exact ⟨m + 1, _, List.append_assoc _ _ _, Nat.succ_pos m, by omega,
            .token skippable passes⟩
      next => simp at found

theorem passes_of_skipTo {e : Expr} {error : Item} (found : skipTo c e s = (some error, r)) :
    ∃ m items q, 0 < m ∧ m ≤ c.window ∧ Passes c (fun q => q.skippable = true) m s items q ∧
      error = q.finish errorKind "" items ∧ Returns q r := by
  unfold skipTo at found
  split at found
  next skipped count next result =>
    obtain ⟨made, rfl⟩ := Prod.mk.inj found
    obtain ⟨m, items, same, some, limit, passes⟩ := passes_of_skipUpTo result
    rw [List.nil_append] at same
    subst same
    exact ⟨m, _, next, some, limit, passes, (Option.some.inj made).symm, .log next _⟩
  next => simp at found

theorem passes_of_consumeUntil (c : Context) (stop : State → Bool) (n : Nat) (s : State) :
    ∃ m, Passes c (fun q => stop q = false) m s (consumeUntil c stop n s).1
      (consumeUntil c stop n s).2 := by
  induction n generalizing s with
  | zero => exact ⟨0, .done s⟩
  | succ n ih =>
      rw [consumeUntil]
      split
      · exact ⟨0, .done s⟩
      next on =>
        obtain ⟨m, passes⟩ := ih (s.moved c)
        exact ⟨m + 1, .token (Bool.eq_false_iff.mpr on) passes⟩

theorem passes_of_skipStatement {item : Expr} {closers : List String} {error : Item}
    (skip : skipStatement c item closers s = (error, r)) :
    ∃ m items q, Passes c (fun q => resumes c item closers q = false) m (s.moved c) items q ∧
      error = q.finish errorKind "" ((s.consumeAny c).1 ++ items) ∧ Returns q r := by
  obtain ⟨m, passes⟩ :=
    passes_of_consumeUntil c (resumes c item closers) c.src.size (s.moved c)
  obtain ⟨made, rfl⟩ := Prod.mk.inj skip
  exact ⟨m, _, _, passes, made.symm, .log _ _⟩

theorem Faces.consumeAny (faces : Faces c s) : ∀ it ∈ (s.consumeAny c).1, Raw it := by
  rw [State.consumeAny, State.consume_fst, List.forall_mem_append]
  refine ⟨fun it member => Or.inl (faces.comments it member), fun it member => Or.inr ?_⟩
  exact ⟨s.token, faces.spells, List.mem_singleton.mp member⟩

section

variable {P Q : State → Prop} {n : Nat} {items : List Item}

theorem Passes.keeps (passes : Passes c P n s items r) (start : Q s)
    (moved : ∀ {s}, Q s → Q (s.moved c)) : Q r := by
  induction passes with
  | done s => exact start
  | token here rest ih => exact ih (moved start)

theorem Passes.raw (passes : Passes c P n s items r) (faces : Faces c s) :
    ∀ it ∈ items, Raw it := by
  induction passes with
  | done s => exact fun _ none => absurd none List.not_mem_nil
  | token here rest ih => exact List.forall_mem_append.mpr ⟨faces.consumeAny, ih faces.moved⟩

end

namespace Faces

theorem skipTo {e : Expr} {error : Item} (faces : Faces c s)
    (found : skipTo c e s = (some error, r)) : Faces c r ∧ Wrong error := by
  obtain ⟨_, items, q, _, _, passes, rfl, back⟩ := passes_of_skipTo found
  exact ⟨(passes.keeps faces moved).returns back, q, items, rfl, passes.raw faces⟩

theorem skipStatement {item : Expr} {closers : List String} {error : Item} (faces : Faces c s)
    (skip : skipStatement c item closers s = (error, r)) : Faces c r ∧ Wrong error := by
  obtain ⟨_, items, q, passes, rfl, back⟩ := passes_of_skipStatement skip
  exact ⟨(passes.keeps faces.moved moved).returns back, q, _, rfl,
    List.forall_mem_append.mpr ⟨faces.consumeAny, passes.raw faces.moved⟩⟩

end Faces

/-- What consuming a token, coming back to one and handing over the comments
before it keep, a parse keeps. -/
theorem Yields.keeps {P : State → Prop} {job : Job} {items : List Item}
    (yields : Yields c job s items r) (start : P s) (moved : ∀ {s}, P s → P (s.moved c))
    (returns : ∀ {s r}, P s → Returns s r → P r) (flush : ∀ {s}, P s → P { s with pending := [] }) :
    P r := by
  have skipTo {s q : State} {e : Expr} {error : Item} (found : skipTo c e s = (some error, q))
      (start : P s) : P q := by
    obtain ⟨_, _, _, _, _, passes, _, back⟩ := passes_of_skipTo found
    exact returns (passes.keeps start moved) back
  have skipStatement {s q : State} {item : Expr} {closers : List String} {error : Item}
      (skip : skipStatement c item closers s = (error, q)) (start : P s) : P q := by
    obtain ⟨_, _, _, passes, _, back⟩ := passes_of_skipStatement skip
    exact returns (passes.keeps (moved start) moved) back
  induction yields with
  | nil | absent | enough | noElement | ended | noSuffix | noOperator => exact start
  | tok | leaf => exact moved start
  | placeholder back => exact returns start back
  | ordered member back inner ih => exact ih (returns start back)
  | skipped found inner ih => exact ih (skipTo found start)
  | unexpected skip rest ih => exact ih (skipStatement skip (flush start))
  | recovered _ inner ih | seq inner ih | choice member inner ih | present inner ih | rep inner ih
  | list inner ih | lastElement inner ih | field inner ih | immediate _ inner ih
  | distant _ inner ih | sameLine _ inner ih | broken _ inner ih | stmts inner ih | binary inner ih
  | unsigned inner ih | spliced _ _ inner ih | node _ _ inner ih | onlySuffix _ _ inner ih =>
      exact ih start
  | signed _ _ inner ih => exact ih (moved start)
  | trailing inner _ ih => exact moved (ih start)
  | cons one rest first second | copy one rest first second | forced one rest first second
  | suffixed one rest first second | suffix _ _ one rest first second
  | operand one rest first second => exact second (first start)
  | separated one _ rest first second | dangling one _ rest first second =>
      exact second (moved (first start))
  | statement one rest first second => exact second (first (flush start))
  | operator _ _ _ _ one rest first second => exact second (first (moved start))

theorem Yields.faces {job : Job} {items : List Item} (yields : Yields c job s items r)
    (faces : Faces c s) : Faces c r :=
  yields.keeps faces Faces.moved Faces.returns Faces.flush

def Job.Known (t : Table) : Job → Prop
  | .task (.expr e _) | .recover e _ => t.Part e
  | .sequence es _ => ∀ e ∈ es, t.Part e
  | .task (.copies body min _ _) => t.Part (.rep body min)
  | .task (.elements elem sep trailing _) => t.Part (.sepBy elem sep trailing)
  | .task (.statements name item closers) => t.Part (.stmts name item closers)
  | .task (.suffixes many all _ _ _) => ∃ head, t.Part (.suffixed head many all)
  | .task (.operand kind operand ops _ _) | .task (.operators kind operand ops _ _ _) =>
      t.Part (.binary kind operand ops)

end MqTree.Parser
