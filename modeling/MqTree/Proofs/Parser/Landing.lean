import MqTree.Proofs.Parser.Start
import MqTree.Proofs.Tree.Sound

namespace MqTree.Parser

open Text

/-! Where a parser stands between two tokens. All that the state shows there
follows from where the last token ended and what the lexer was inside of. -/

def Spread (low high : Int) : List Item → Prop
  | [] => low ≤ high
  | it :: rest => low ≤ it.start ∧ it.node.Sound ∧ Spread it.stop high rest

namespace Spread

variable {low mid high : Int} {items more : List Item}

theorem low_le (spread : Spread low high items) : low ≤ high := by
  induction items generalizing low with
  | nil => exact spread
  | cons it rest ih =>
      have := spread.2.1.length_nonneg
      have := ih spread.2.2
      have := spread.1
      simp only [Item.stop] at *
      omega

theorem append (spread : Spread low mid items) (next : Spread mid high more) :
    Spread low high (items ++ more) := by
  induction items generalizing low with
  | nil =>
      cases more with
      | nil => exact Int.le_trans spread next
      | cons it rest => exact ⟨Int.le_trans spread next.1, next.2⟩
  | cons it rest ih => exact ⟨spread.1, spread.2.1, ih spread.2.2⟩

theorem mono {low' high' : Int} (spread : Spread low high items) (below : low' ≤ low)
    (above : high ≤ high') : Spread low' high' items := by
  induction items generalizing low low' with
  | nil => exact Int.le_trans (Int.le_trans below spread) above
  | cons it rest ih =>
      exact ⟨Int.le_trans below spread.1, spread.2.1, ih spread.2.2 (Int.le_refl _)⟩

theorem soundFrom (spread : Spread low high items) (start : Int) :
    Subtree.SoundFrom (low - start) (high - start) (items.map (Item.edge start)) := by
  induction items generalizing low with
  | nil =>
      rw [List.map_nil, Subtree.SoundFrom]
      exact Int.sub_le_sub_right spread start
  | cons it rest ih =>
      have next := ih spread.2.2
      rw [List.map_cons, Item.edge, Subtree.SoundFrom]
      refine ⟨Int.sub_le_sub_right spread.1 start, spread.2.1, ?_⟩
      rw [show it.start - start + it.node.length = it.stop - start by
        simp only [Item.stop]
        omega]
      exact next

end Spread

def commentItem (token : Token) : Item := ⟨"", token.start, .ofToken commentSymbol true token⟩

inductive Advances (c : Context) : State → State → Prop
  | token (s : State) (plain : (s.lexer.next c.src).1.kind ≠ .comment) :
      Advances c s
        { s with
          lexer := (s.lexer.next c.src).2
          token := (s.lexer.next c.src).1
          terminal := c.table.termId? (s.lexer.next c.src).1.symbol
          atBase := s.lexer.atBase }
  | comment (s : State) {next : State} (comment : (s.lexer.next c.src).1.kind = .comment)
      (rest : Advances c
        { s with
          lexer := (s.lexer.next c.src).2
          pending := s.pending ++ [commentItem (s.lexer.next c.src).1] } next) :
      Advances c s next

theorem State.advanceUpTo_succ (c : Context) (n : Nat) (s : State) :
    s.advanceUpTo c (n + 1) =
      if (s.lexer.next c.src).1.kind = .comment then
        State.advanceUpTo c n
          { s with
            lexer := (s.lexer.next c.src).2
            pending := s.pending ++ [commentItem (s.lexer.next c.src).1] }
      else
        { s with
          lexer := (s.lexer.next c.src).2
          token := (s.lexer.next c.src).1
          terminal := c.table.termId? (s.lexer.next c.src).1.symbol
          atBase := s.lexer.atBase } := rfl

namespace Advances

variable {c : Context} {s s' : State}

theorem of_advanceUpTo {n : Nat} (inside : s.lexer.offset ≤ c.src.size)
    (enough : c.src.size - s.lexer.offset < n) : Advances c s (s.advanceUpTo c n) := by
  induction n generalizing s with
  | zero => omega
  | succ n ih =>
      by_cases kind : (s.lexer.next c.src).1.kind = .comment
      · have more : (s.lexer.next c.src).1.isEnd = false := by
          rw [Token.isEnd, kind]
          rfl
        have step := Lexer.next_within inside
        have progress := Lexer.next_lt inside more
        rw [Lexer.next_stop] at step progress
        have rest := ih (s := { s with
          lexer := (s.lexer.next c.src).2
          pending := s.pending ++ [commentItem (s.lexer.next c.src).1] })
          (by simp only [Lexer.next_offset]; omega) (by simp only [Lexer.next_offset]; omega)
        rw [State.advanceUpTo_succ, if_pos kind]
        exact .comment s kind rest
      · rw [State.advanceUpTo_succ, if_neg kind]
        exact .token s kind

theorem unique {s'' : State} (first : Advances c s s') (second : Advances c s s'') : s' = s'' := by
  induction first with
  | token s plain =>
      cases second with
      | token _ _ => rfl
      | comment _ kind _ => exact absurd kind plain
  | comment s kind rest ih =>
      cases second with
      | token _ plain => exact absurd kind plain
      | comment _ _ more => exact ih more

end Advances

namespace State

variable {c : Context} {s : State}

theorem advance_advances (inside : s.lexer.offset ≤ c.src.size) : Advances c s (s.advance c) :=
  .of_advanceUpTo inside (by omega)

theorem advance_eq_of {s' : State} (inside : s.lexer.offset ≤ c.src.size)
    (advances : Advances c s s') : s.advance c = s' :=
  (advance_advances inside).unique advances

def unread (reuse : ReuseIndex) : State where
  lexer := .initial
  token := ⟨.endOfInput, "", 0, 0, 1, 1, false⟩
  terminal := none
  atBase := true
  pending := []
  prevEnd := 0
  reuse := reuse
  trace := []

theorem initial_advances (c : Context) (reuse : ReuseIndex) :
    Advances c (unread reuse) (State.initial c reuse) :=
  advance_advances (Nat.zero_le _)

end State

theorem Token.mark_of_spells {token : Token} (spells : token.kind.Spells token.lit)
    (mark : isMark token.symbol = true) : token.kind = .punctuation ∧ token.lit = token.symbol := by
  unfold Token.symbol at mark ⊢
  cases kind : token.kind
  all_goals rw [kind] at spells mark
  case keyword =>
    rw [isMark, List.contains_iff_mem.mpr spells] at mark
    contradiction
  case punctuation => exact ⟨rfl, rfl⟩
  all_goals
    simp only [] at mark
    exact absurd mark (by decide)

structure Reached (c : Context) (frames : List Frame) (s : State) : Prop where
  terminal : s.terminal = c.table.termId? s.token.symbol
  notComment : s.token.kind ≠ .comment
  atBase : s.atBase = frames.isEmpty
  opened : s.lexer.frames = Frame.after s.token.lit frames
  kind : s.token.kind = (Lexeme.read c.src frames s.token.start).kind
  lit : s.token.lit = (Lexeme.read c.src frames s.token.start).lit
  stop : s.token.stop = (Lexeme.read c.src frames s.token.start).stop
  solid : frames = [] → (c.src[s.token.start]?).any isBlank = false
  offset : s.lexer.offset = s.token.stop
  start_le : s.token.start ≤ c.src.size
  looked : (Lexeme.read c.src frames s.token.start).reach ≤ s.lexer.reach
  counted : s.lexer.place.Counted c.src
  placed : (LineIndex.ofText c.src).point s.token.start = ⟨s.token.line, s.token.column⟩

namespace Reached

variable {c : Context} {frames : List Frame} {s : State}

theorem start_le_stop (reached : Reached c frames s) :
    s.token.start ≤ s.token.stop ∧ s.token.stop ≤ c.src.size := by
  obtain ⟨above, below, _⟩ := Lexeme.read_within frames reached.start_le
  rw [reached.stop]
  exact ⟨above, below⟩

theorem isEnd_iff (reached : Reached c frames s) :
    s.token.isEnd = true ↔ s.token.start = c.src.size := by
  rw [Token.isEnd, beq_iff_eq, reached.kind]
  exact Lexeme.read_kind_eq_end_iff frames reached.start_le

theorem start_lt (reached : Reached c frames s) (more : s.token.isEnd = false) :
    s.token.start < s.token.stop ∧ s.token.start < c.src.size := by
  have before : s.token.start < c.src.size := by
    apply Nat.lt_of_le_of_ne reached.start_le
    intro ended
    rw [reached.isEnd_iff.mpr ended] at more
    contradiction
  refine ⟨?_, before⟩
  rw [reached.stop]
  exact (Lexeme.read_bounded frames before).stop_gt

theorem spells (reached : Reached c frames s) : s.token.kind.Spells s.token.lit := by
  rw [reached.kind, reached.lit]
  exact Lexeme.read_spells c.src frames s.token.start

theorem symbol_ne_missing (reached : Reached c frames s) : s.token.symbol ≠ missingKind := by
  have spells := reached.spells
  unfold Token.symbol
  cases kind : s.token.kind
  all_goals rw [kind] at spells
  case keyword => exact (by decide : ∀ word ∈ keywords, word ≠ missingKind) _ spells
  case punctuation => exact (by decide : ∀ mark ∈ punctuationMarks, mark ≠ missingKind) _ spells
  all_goals
    simp only []
    decide

end Reached

namespace Advances

variable {c : Context} {s s' : State}

private theorem comment_lit {l : Lexer} (kind : (l.next c.src).1.kind = .comment) :
    (l.lexeme c.src).lit = "" := by
  have spells := Lexeme.read_spells c.src l.frames (l.opening c.src)
  rw [Lexer.next_kind, Lexer.lexeme] at kind
  rw [kind] at spells
  exact spells

private theorem comment_frames {l : Lexer} (kind : (l.next c.src).1.kind = .comment) :
    (l.next c.src).2.frames = l.frames := by
  rw [Lexer.next_frames, comment_lit kind, Frame.after_empty]

private theorem opening_solid {l : Lexer} (base : l.frames = []) :
    (c.src[l.opening c.src]?).any isBlank = false := by
  rw [Lexer.opening, base]
  exact skipWhile_stops c.src isBlank l.offset

theorem reached (advances : Advances c s s') (inside : s.lexer.offset ≤ c.src.size)
    (counted : s.lexer.place.Counted c.src) : Reached c s.lexer.frames s' := by
  induction advances with
  | token s plain =>
      have within := Lexer.next_within inside
      exact
        { terminal := rfl
          notComment := plain
          atBase := rfl
          opened := by rw [Lexer.next_frames, Lexer.next_lit]
          kind := by rw [Lexer.next_kind, Lexer.next_start, Lexer.lexeme]
          lit := by rw [Lexer.next_lit, Lexer.next_start, Lexer.lexeme]
          stop := by rw [Lexer.next_stop, Lexer.next_start, Lexer.lexeme]
          solid := fun base => by
            rw [Lexer.next_start]
            exact opening_solid base
          offset := by rw [Lexer.next_offset, Lexer.next_stop]
          start_le := Nat.le_trans within.2.1 within.2.2
          looked := by
            rw [Lexer.next_start, Lexer.next_reach, Lexer.lexeme]
            exact Nat.le_max_right _ _
          counted := (Lexer.next_counted counted inside).1
          placed := (Lexer.next_counted counted inside).2 }
  | comment s kind rest ih =>
      have within := Lexer.next_within inside
      rw [Lexer.next_stop] at within
      have next := ih (by rw [Lexer.next_offset]; exact within.2.2)
        (Lexer.next_counted counted inside).1
      rwa [comment_frames kind] at next

theorem comments (advances : Advances c s s') (inside : s.lexer.offset ≤ c.src.size) :
    ∃ comments, s'.pending = s.pending ++ comments ∧
      Spread s.lexer.offset s'.token.start comments := by
  induction advances with
  | token s plain =>
      have within := Lexer.next_within inside
      exact ⟨[], (List.append_nil _).symm, Int.ofNat_le.mpr within.1⟩
  | comment s kind rest ih =>
      have within := Lexer.next_within inside
      obtain ⟨comments, made, spread⟩ := ih (by
        rw [Lexer.next_offset, ← Lexer.next_stop]
        exact within.2.2)
      refine ⟨commentItem (s.lexer.next c.src).1 :: comments, ?_, ?_, ?_, ?_⟩
      · rw [made, List.append_assoc]
        rfl
      · exact Int.ofNat_le.mpr within.1
      · simp only [commentItem, Subtree.ofToken, Subtree.Sound]
        exact ⟨by decide, Int.natCast_nonneg _⟩
      · apply spread.mono _ (Int.le_refl _)
        rw [Lexer.next_offset, ← Lexer.next_stop]
        simp only [Item.stop, commentItem, Subtree.ofToken, Subtree.length, Token.length]
        omega

theorem pending_comments (advances : Advances c s s')
    (before : ∀ it ∈ s.pending, ∃ token, it = commentItem token) :
    ∀ it ∈ s'.pending, ∃ token, it = commentItem token := by
  induction advances with
  | token s plain => exact before
  | comment s kind rest ih =>
      apply ih
      intro it member
      rcases List.mem_append.mp member with old | new
      · exact before it old
      · exact ⟨_, List.mem_singleton.mp new⟩

theorem kept (advances : Advances c s s') :
    s'.prevEnd = s.prevEnd ∧ s'.reuse = s.reuse ∧ s'.trace = s.trace := by
  induction advances with
  | token s plain => exact ⟨rfl, rfl, rfl⟩
  | comment s kind rest ih => exact ih

theorem reach_le (advances : Advances c s s') (inside : s.lexer.offset ≤ c.src.size) :
    s.lexer.reach ≤ s'.lexer.reach ∧ s'.lexer.reach ≤ max s.lexer.reach (c.src.size + 1) := by
  induction advances with
  | token s plain =>
      refine ⟨?_, Lexer.next_reach_le inside⟩
      rw [Lexer.next_reach]
      exact Nat.le_max_left _ _
  | comment s kind rest ih =>
      have within := Lexer.next_within inside
      have limit := Lexer.next_reach_le inside
      have next := ih (by
        rw [Lexer.next_offset, ← Lexer.next_stop]
        exact within.2.2)
      have more : s.lexer.reach ≤ (s.lexer.next c.src).2.reach := by
        rw [Lexer.next_reach]
        exact Nat.le_max_left _ _
      simp only [] at next
      omega

theorem start_ge (advances : Advances c s s') (inside : s.lexer.offset ≤ c.src.size) :
    s.lexer.offset ≤ s'.token.start := by
  obtain ⟨_, _, spread⟩ := advances.comments inside
  exact Int.ofNat_le.mp spread.low_le

theorem reach_ge (advances : Advances c s s') : s.lexer.reach ≤ s'.lexer.reach := by
  induction advances with
  | token s plain =>
      rw [Lexer.next_reach]
      exact Nat.le_max_left _ _
  | comment s kind rest ih =>
      rw [Lexer.next_reach] at ih
      exact Nat.le_trans (Nat.le_max_left _ _) ih

/-- Where the lexer stands decides what is read; all else is carried along. -/
theorem rebase (advances : Advances c s s') {r : State}
    (cursor : r.lexer.toCursor = s.lexer.toCursor) (reach : s.lexer.reach ≤ r.lexer.reach)
    (pending : r.pending = s.pending) :
    Advances c r
      { s' with
        lexer := ⟨s'.lexer.toCursor, max r.lexer.reach s'.lexer.reach⟩
        prevEnd := r.prevEnd
        reuse := r.reuse
        trace := r.trace } := by
  induction advances generalizing r with
  | token s plain =>
      obtain ⟨token, lexer⟩ := @Lexer.next_of_cursor c.src s.lexer r.lexer cursor
      have made := Advances.token (c := c) r (by rwa [token])
      have base : r.lexer.atBase = s.lexer.atBase := by
        rw [Lexer.atBase, Lexer.atBase, cursor]
      have further : max r.lexer.reach (s.lexer.lexeme c.src).reach =
          max r.lexer.reach (s.lexer.next c.src).2.reach := by
        rw [Lexer.next_reach]
        omega
      rw [lexer, token, base, pending, further] at made
      exact made
  | comment s kind rest ih =>
      obtain ⟨token, lexer⟩ := @Lexer.next_of_cursor c.src s.lexer r.lexer cursor
      have looked := rest.reach_ge
      rw [Lexer.next_reach] at looked
      have next := @ih
        { r with
          lexer := (r.lexer.next c.src).2
          pending := r.pending ++ [commentItem (r.lexer.next c.src).1] }
        (by rw [lexer])
        (by
          simp only [lexer, Lexer.next_reach]
          omega)
        (by rw [token, pending])
      have further : ∀ last : Nat, (s.lexer.lexeme c.src).reach ≤ last →
          max (r.lexer.next c.src).2.reach last = max r.lexer.reach last := by
        intro last above
        simp only [lexer]
        omega
      rw [further _ (by omega)] at next
      exact .comment r (by rwa [token]) next

end Advances

/-! ### Landings -/

namespace State

/-- The state of a parser whose last token ended at `stop`, in these frames. -/
def landing (c : Context) (stop : Nat) (frames : List Frame) : State :=
  State.advance c
    { lexer := ⟨⟨Place.origin.moveTo c.src stop, frames⟩, 0⟩
      token := ⟨.endOfInput, "", 0, 0, 1, 1, false⟩
      terminal := none
      atBase := true
      pending := []
      prevEnd := stop
      reuse := .empty
      trace := [] }

variable {c : Context} {s : State} {stop : Nat} {frames : List Frame}

theorem landing_advances (frames : List Frame) (inside : stop ≤ c.src.size) :
    ∃ base : State, Advances c base (landing c stop frames) ∧
      base.lexer.toCursor = ⟨Place.origin.moveTo c.src stop, frames⟩ ∧ base.lexer.reach = 0 ∧
      base.pending = [] := by
  refine ⟨_, advance_advances ?_, rfl, rfl, rfl⟩
  rw [Lexer.offset, Place.index_moveTo]
  exact inside

/-- Reading on from anywhere is landing there. -/
theorem advance_eq_landing (inside : s.lexer.offset ≤ c.src.size)
    (counted : s.lexer.place.Counted c.src) (pending : s.pending = []) :
    s.advance c =
      { landing c s.lexer.offset s.lexer.frames with
        lexer := ⟨(landing c s.lexer.offset s.lexer.frames).lexer.toCursor,
          max s.lexer.reach (landing c s.lexer.offset s.lexer.frames).lexer.reach⟩
        prevEnd := s.prevEnd
        reuse := s.reuse
        trace := s.trace } := by
  obtain ⟨base, advances, cursor, reach, none⟩ := landing_advances s.lexer.frames inside
  apply advance_eq_of inside
  apply advances.rebase
  · rw [cursor, Lexer.offset, ← counted.eq_moveTo]
  · omega
  · rw [pending, none]

theorem landing_reached (frames : List Frame) (inside : stop ≤ c.src.size) :
    Reached c frames (landing c stop frames) := by
  obtain ⟨base, advances, cursor, _, _⟩ := landing_advances frames inside
  have reached := advances.reached
    (by
      rw [Lexer.offset, cursor, Place.index_moveTo]
      exact inside)
    (by
      rw [cursor]
      exact (Place.counted_origin c.src).moveTo stop)
  rwa [cursor] at reached

theorem landing_spread (frames : List Frame) (inside : stop ≤ c.src.size) :
    Spread stop (landing c stop frames).token.start (landing c stop frames).pending := by
  obtain ⟨base, advances, cursor, _, none⟩ := landing_advances frames inside
  have offset : base.lexer.offset = stop := by
    rw [Lexer.offset, cursor, Place.index_moveTo]
  obtain ⟨comments, made, spread⟩ := advances.comments (by rw [offset]; exact inside)
  rw [made, none, List.nil_append]
  rwa [offset] at spread

theorem landing_comments (frames : List Frame) (inside : stop ≤ c.src.size) :
    ∀ it ∈ (landing c stop frames).pending, ∃ token, it = commentItem token := by
  obtain ⟨base, advances, _, _, none⟩ := landing_advances frames inside
  apply advances.pending_comments
  intro it member
  rw [none] at member
  contradiction

theorem landing_reach_le (frames : List Frame) (inside : stop ≤ c.src.size) :
    (landing c stop frames).lexer.reach ≤ c.src.size + 1 := by
  obtain ⟨base, advances, cursor, reach, _⟩ := landing_advances frames inside
  have offset : base.lexer.offset = stop := by
    rw [Lexer.offset, cursor, Place.index_moveTo]
  have limit := (advances.reach_le (by rw [offset]; exact inside)).2
  omega

end State

end MqTree.Parser
