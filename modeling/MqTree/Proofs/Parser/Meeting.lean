import MqTree.Proofs.Lexer.Excerpt
import MqTree.Proofs.Parser.FollowLoops

namespace MqTree.Parser.Track

/-! Where two texts agree, two parses that stand alike are at the same token. -/

variable {p : Track} {o : Outline} {n : Nat} {s s' r r' : State}

def Sees (p : Track) (n : Nat) (r : State) : Prop :=
  r.lexer.reach ≤ p.a + n ∨
    r.token.stop ≤ p.a + n ∧ p.other.size ≤ p.b + n ∧
      (r.token.kind = .stringContent → r.token.stop < p.a + n →
        p.c.src[r.token.stop]? = some (Text.byte '$') → r.token.stop + 2 ≤ p.a + n)

private theorem shown_of_token (sees : p.Sees n
      { s with
        lexer := (s.lexer.next p.c.src).2
        token := (s.lexer.next p.c.src).1
        terminal := p.c.table.termId? (s.lexer.next p.c.src).1.symbol
        atBase := s.lexer.atBase }) :
    Lexeme.Shown p.c.src p.other p.a p.b n (s.lexer.lexeme p.c.src) := by
  simp only [Sees, Lexer.next_reach, Lexer.next_stop, Lexer.next_kind] at sees
  rcases sees with near | shown
  · exact Or.inl (by omega)
  · exact Or.inr shown

private theorem shown_of_comment (advances : Advances p.c s r) (inside : s.lexer.offset ≤ p.c.src.size)
    (counted : s.lexer.place.Counted p.c.src)
    (kind : (s.lexer.next p.c.src).1.kind = .comment) (sees : p.Sees n r) :
    Lexeme.Shown p.c.src p.other p.a p.b n (s.lexer.lexeme p.c.src) := by
  rw [Lexer.next_kind] at kind
  cases advances with
  | token _ plain =>
      rw [Lexer.next_kind] at plain
      exact absurd kind plain
  | comment _ _ rest =>
      have within := Lexer.next_within inside
      rw [Lexer.next_stop] at within
      have inside' : (s.lexer.next p.c.src).2.offset ≤ p.c.src.size := by
        rw [Lexer.next_offset]
        exact within.2.2
      have later := rest.start_ge inside'
      have ends := (rest.reached inside' (Lexer.next_counted counted inside).1).start_le_stop.1
      have reach := rest.reach_ge
      simp only [Lexer.next_offset, Lexer.next_reach] at later reach
      rcases sees with near | ⟨taken, past, _⟩
      · exact Or.inl (by omega)
      · refine Or.inr ⟨by omega, past, fun content => ?_⟩
        rw [kind] at content
        contradiction

private structure NextAlike (p : Track) (s s' : State) : Prop where
  kind : (s'.lexer.next p.other).1.kind = (s.lexer.next p.c.src).1.kind
  lit : (s'.lexer.next p.other).1.lit = (s.lexer.next p.c.src).1.lit
  start : (s'.lexer.next p.other).1.start = p.b + ((s.lexer.next p.c.src).1.start - p.a)
  stop : (s'.lexer.next p.other).1.stop = p.b + ((s.lexer.next p.c.src).1.stop - p.a)
  newline : (s'.lexer.next p.other).1.newlineBefore = (s.lexer.next p.c.src).1.newlineBefore
  frames : (s'.lexer.next p.other).2.frames = (s.lexer.next p.c.src).2.frames

section

variable (agree : p.c.src.Agree p.a p.other p.b n)
  (offset : s'.lexer.offset = p.b + (s.lexer.offset - p.a))
  (frames : s'.lexer.frames = s.lexer.frames) (above : p.a ≤ s.lexer.offset)
  (inside : s.lexer.offset ≤ p.c.src.size)

include above inside

include agree offset frames in
private theorem next_alike (room : p.b ≤ p.other.size)
    (whole : p.other.size ≤ p.b + n ∨ Rune.StaysTorn p.c.src p.a p.other p.b n)
    (shown : Lexeme.Shown p.c.src p.other p.a p.b n (s.lexer.lexeme p.c.src)) :
    NextAlike p s s' := by
  have later := Lexer.offset_le_opening p.c.src s.lexer
  obtain ⟨opening, same, newline⟩ := Lexer.next_agree agree offset frames above inside room shown
    fun _ near => whole.imp_right fun stays => stays.get (by omega) near
  refine ⟨?_, ?_, ?_, ?_, newline, ?_⟩
  · rw [Lexer.next_kind, Lexer.next_kind, same.kind]
  · rw [Lexer.next_lit, Lexer.next_lit, same.lit]
  · rw [Lexer.next_start, Lexer.next_start, opening]
  · rw [Lexer.next_stop, Lexer.next_stop, same.stop]
  · rw [Lexer.next_frames, Lexer.next_frames, same.lit, frames]

namespace NextAlike

variable (next : NextAlike p s s')

include next

private theorem text (agree : p.c.src.Agree p.a p.other p.b n)
    (shown : Lexeme.Shown p.c.src p.other p.a p.b n (s.lexer.lexeme p.c.src)) :
    (s'.lexer.next p.other).1.text p.other = (s.lexer.next p.c.src).1.text p.c.src := by
  have later := Lexer.offset_le_opening p.c.src s.lexer
  have within := Lexeme.read_within s.lexer.frames (Lexer.opening_le inside)
  have taken : (s.lexer.lexeme p.c.src).stop ≤ p.a + n := by
    change _ ∧ _ ∧ (s.lexer.lexeme p.c.src).stop ≤ (s.lexer.lexeme p.c.src).reach ∧ _ at within
    rcases shown with near | ⟨taken, _⟩ <;> omega
  rw [Token.text, Token.text, next.start, next.stop]
  apply agree.extract
  · rw [Lexer.next_start]
    exact Nat.le_trans above later
  · rwa [Lexer.next_stop]

private theorem comment : p.Likes "" "" [commentItem (s.lexer.next p.c.src).1]
    [commentItem (s'.lexer.next p.other).1] := by
  have within := Lexer.next_within inside
  have start := next.start
  have length : (s'.lexer.next p.other).1.length = (s.lexer.next p.c.src).1.length := by
    rw [Token.length, Token.length, next.start, next.stop]
    omega
  refine .single ⟨?_, ?_, Or.inl rfl⟩
  · show ((s'.lexer.next p.other).1.start : Int) = p.b + ((s.lexer.next p.c.src).1.start - p.a)
    omega
  · show (Subtree.ofToken _ _ (s'.lexer.next p.other).1).bare =
      (Subtree.ofToken _ _ (s.lexer.next p.c.src).1).bare
    simp only [Subtree.ofToken, length, next.kind, next.lit]

end NextAlike

end

theorem advances_meet (agree : p.c.src.Agree p.a p.other p.b n) (first : Advances p.c s r)
    (second : Advances p.d s' r') (offset : s'.lexer.offset = p.b + (s.lexer.offset - p.a))
    (frames : s'.lexer.frames = s.lexer.frames) (above : p.a ≤ s.lexer.offset)
    (inside : s.lexer.offset ≤ p.c.src.size) (counted : s.lexer.place.Counted p.c.src)
    (room : p.b ≤ p.other.size) (likes : p.Likes "" "" s.pending s'.pending) (sees : p.Sees n r)
    (whole : p.other.size ≤ p.b + n ∨ Rune.StaysTorn p.c.src p.a p.other p.b n) : p.Matches r r' := by
  induction first generalizing s' with
  | token s plain =>
      have shown := shown_of_token sees
      have next := next_alike agree offset frames above inside room whole shown
      cases second with
      | comment _ comment _ => exact absurd (next.kind.symm.trans comment) plain
      | token _ _ =>
          exact ⟨next.kind, next.lit, next.start, next.stop, next.newline,
            next.text above inside agree shown, likes⟩
  | comment s kind rest ih =>
      have shown := shown_of_comment (.comment s kind rest) inside counted kind sees
      have next := next_alike agree offset frames above inside room whole shown
      have within := Lexer.next_within inside
      have stop := next.stop
      rw [Lexer.next_start, Lexer.next_stop] at within
      cases second with
      | token _ plain => exact absurd (next.kind.trans kind) plain
      | comment _ _ more =>
          refine ih more ?_ next.frames ?_ ?_ (Lexer.next_counted counted inside).1
            (likes.append (next.comment above inside)) sees
          · show (s'.lexer.next p.other).2.offset = p.b + ((s.lexer.next p.c.src).2.offset - p.a)
            rwa [Lexer.next_offset, Lexer.next_offset, ← Lexer.next_stop, ← Lexer.next_stop]
          · show p.a ≤ (s.lexer.next p.c.src).2.offset
            rw [Lexer.next_offset]
            omega
          · show (s.lexer.next p.c.src).2.offset ≤ p.c.src.size
            rw [Lexer.next_offset]
            exact within.2.2

variable {start : Nat} {frames : List Frame}

/-- Landings are at the same token, as far as the texts agree. -/
theorem landings_meet (agree : p.c.src.Agree p.a p.other p.b n) (above : p.a ≤ start)
    (inside : start ≤ p.c.src.size) (inside' : p.b + (start - p.a) ≤ p.other.size)
    (sees : p.Sees n (State.landing p.c start frames))
    (whole : p.other.size ≤ p.b + n ∨ Rune.StaysTorn p.c.src p.a p.other p.b n) :
    p.Matches (State.landing p.c start frames)
      (State.landing p.d (p.b + (start - p.a)) frames) := by
  obtain ⟨base, advances, cursor, _, none⟩ := State.landing_advances (c := p.c) frames inside
  obtain ⟨base', advances', cursor', _, none'⟩ := State.landing_advances (c := p.d) frames inside'
  have offset : base.lexer.offset = start := by rw [Lexer.offset, cursor, Place.index_moveTo]
  have offset' : base'.lexer.offset = p.b + (start - p.a) := by
    rw [Lexer.offset, cursor', Place.index_moveTo]
  apply advances_meet agree advances advances'
  · rw [offset, offset']
  · rw [cursor, cursor']
  · rw [offset]
    exact above
  · rw [offset]
    exact inside
  · rw [cursor]
    exact (Place.counted_origin p.c.src).moveTo start
  · omega
  · rw [none, none']
    exact .nil
  · exact sees
  · exact whole

theorem Rel.sees (rel : p.Rel s s')
    (landed : ∀ frames, Stands p.c frames s → p.Way s.prevEnd frames →
      p.Matches (State.landing p.c s.prevEnd frames)
        (State.landing p.d (p.b + (s.prevEnd - p.a)) frames)) : p.Matches s s' := by
  obtain ⟨⟨frames, stands, stands', way, pending⟩, _, prevEnd, _, _⟩ := rel
  obtain ⟨kind, lit, start, stop, newline, text, likes⟩ := landed frames stands way
  rw [← prevEnd] at kind lit start stop newline text likes
  rw [← stands.token, ← stands'.token] at kind lit start stop newline text
  refine ⟨kind, lit, start, stop, newline, text, ?_⟩
  rcases pending with ⟨own, own'⟩ | ⟨handed, handed'⟩
  · rw [own, own']
    exact likes
  · rw [handed, handed']
    exact .nil

def trial (p : Track) : Track := { p with c := { p.c with speculating := true } }

theorem Rel.trial (rel : p.Rel s s') : p.trial.Rel s s' := by
  obtain ⟨⟨frames, stands, stands', way, pending⟩, above, prevEnd, offered, fresh⟩ := rel
  refine ⟨⟨frames, stands.speculating, @Stands.speculating p.d true frames s' stands', way, ?_⟩,
    above, prevEnd, offered, fresh⟩
  rw [← State.landing_speculating p.c true, ← State.landing_speculating p.d true] at pending
  exact pending

theorem Rel.of_trial (rel : p.trial.Rel s s') : p.Rel s s' := by
  obtain ⟨⟨frames, stands, stands', way, pending⟩, above, prevEnd, offered, fresh⟩ := rel
  refine ⟨⟨frames, stands.of_speculating, @Stands.of_speculating p.d true frames s' stands', way, ?_⟩,
    above, prevEnd, offered, fresh⟩
  rw [← State.landing_speculating p.c true, ← State.landing_speculating p.d true]
  exact pending

private theorem passed_of_trial {c : Context} (passed : Passed { c with speculating := true } s r) :
    Passed c s r := by
  obtain ⟨⟨frames, stands, way⟩, reach, prevEnd, reuse⟩ := passed
  rw [State.landing_speculating c true] at way
  exact ⟨⟨frames, stands.of_speculating, way⟩, reach, prevEnd, reuse⟩

theorem Lawful.trial (lawful : p.Lawful o) : p.trial.Lawful o where
  law := lawful.law
  back := fun passed heeds => lawful.back (passed_of_trial passed) heeds
  lost := lawful.lost
  meet := by
    intro s s' rel heeds
    rcases lawful.meet rel.of_trial heeds with same | parts
    · exact Or.inl ⟨same.kind, same.lit, same.start, same.stop, same.newline, same.text,
        same.pending.imp fun _ _ like => ⟨like.start, like.node, like.field⟩⟩
    · exact Or.inr ⟨parts.ended, fun r passed => parts.stuck r (passed_of_trial passed), parts.calm⟩
  next := by
    intro s frames stands way more heeds
    change p.Heeds (s.moved { p.c with speculating := true }) at heeds
    rw [State.moved_speculating] at heeds
    exact lawful.next stands.of_speculating way more heeds

variable {f g : String}

theorem Follows.of_trial {first first' : Outcome} (follows : p.trial.Follows f g first first') :
    p.Follows f g first first' := by
  rcases follows with halted | follows
  · exact Or.inl halted
  · cases first with
    | done items r =>
        refine Or.inr fun heeds => ?_
        obtain ⟨items', r', made, likes, rel⟩ := follows heeds
        exact ⟨items', r', made, likes.imp fun _ _ like => ⟨like.start, like.node, like.field⟩,
          rel.of_trial⟩
    | failed r => exact Or.inr follows
    | halted v => exact Or.inr trivial

theorem Follows.single {x : Item} {o' : Outcome} (follows : p.Follows f g (.done [x] r) o')
    (heeds : p.Heeds r) :
    (∃ v, o' = .halted v) ∨ ∃ y r', o' = .done [y] r' ∧ p.Like f g x y ∧ p.Rel r r' := by
  rcases follows with halted | follows
  · exact Or.inl halted
  · obtain ⟨items, r', made, likes, rel⟩ := follows heeds
    cases likes with
    | cons like rest =>
        cases rest with
        | nil => exact Or.inr ⟨_, r', made, like, rel⟩

theorem Lawful.tries (lawful : p.Lawful o) (rel : p.Rel s s') (ready : Ready p.c o s) {alt : Expr}
    (admitted : p.c.table.admits o true alt = true) (n m : Nat) :
    p.Follows f g (run n { p.c with speculating := true } (.expr alt f) s)
      (run m { p.d with speculating := true } (.expr alt g) s') :=
  Follows.of_trial (Track.follows lawful.trial nofun n m (.expr alt) (Ready.speculating ready)
    admitted rel.trial)

end MqTree.Parser.Track
