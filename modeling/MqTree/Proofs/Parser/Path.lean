import MqTree.Proofs.Lexer.Excerpt
import MqTree.Proofs.Parser.Marks

namespace MqTree.Parser

open Text

/-! The tokens that a parse takes lead from where it begins to where it ends. -/

/-- From `start` on, inside of these frames, token by token to `stop` outside of
all frames. -/
inductive Path (c : Context) (stop : Nat) : Nat → List Frame → Prop
  | here : Path c stop stop []
  | token {start : Nat} {frames : List Frame} (inside : start ≤ c.src.size)
      (more : (State.landing c start frames).token.isEnd = false)
      (rest : Path c stop (State.landing c start frames).token.stop
        (State.landing c start frames).lexer.frames) :
      Path c stop start frames

namespace Path

variable {c : Context} {stop start : Nat} {frames : List Frame}

private theorem landing_start_ge (frames : List Frame) (inside : start ≤ c.src.size) :
    start ≤ (State.landing c start frames).token.start :=
  Int.ofNat_le.mp (State.landing_spread frames inside).low_le

theorem le (path : Path c stop start frames) : start ≤ stop := by
  induction path with
  | here => exact Nat.le_refl stop
  | @token start frames inside more rest ih =>
      have later := landing_start_ge frames inside
      have taken := (State.landing_reached frames inside).start_lt more
      omega

theorem step (path : Path c stop start frames) (before : start < stop) :
    (State.landing c start frames).token.isEnd = false ∧
      (State.landing c start frames).token.stop ≤ stop ∧
      Path c stop (State.landing c start frames).token.stop
        (State.landing c start frames).lexer.frames := by
  cases path with
  | here => omega
  | token inside more rest => exact ⟨more, rest.le, rest⟩

/-- No path ends inside of an escaped dollar sign. -/
theorem dollar (path : Path c stop start frames) (inside : start ≤ c.src.size)
    (before : start < stop)
    (kind : (State.landing c start frames).token.kind = .stringContent)
    (more : (State.landing c start frames).token.stop < stop)
    (dollar : c.src[(State.landing c start frames).token.stop]? = some (byte '$')) :
    (State.landing c start frames).token.stop + 2 ≤ stop := by
  obtain ⟨_, _, rest⟩ := path.step before
  have reached := State.landing_reached frames inside
  obtain ⟨further, ends, _⟩ := rest.step more
  have bound := reached.start_le_stop.2
  have later := landing_start_ge (State.landing c start frames).lexer.frames bound
  have next := State.landing_reached (State.landing c start frames).lexer.frames bound
  have taken := next.start_lt further
  rcases Nat.eq_or_lt_of_le later with here | ahead
  · rw [reached.kind] at kind
    have stops := reached.stop
    rw [stops] at dollar
    have two := Lexeme.read_of_content kind dollar
    rw [← reached.lit, ← stops, ← reached.opened] at two
    have nextStop := next.stop
    rw [← here, two] at nextStop
    omega
  · omega

end Path

/-- A parse from scratch goes along a path. -/
theorem Built.path {c : Context} {frames : List Frame} {s r : State} {items : List Item}
    (built : Built c s items r) (stands : Stands c frames s) (fresh : s.reuse.entries = [])
    (stop : Nat) :
    ∃ frames', Stands c frames' r ∧ r.reuse.entries = [] ∧
      (Path c stop r.prevEnd frames' → Path c stop s.prevEnd frames) := by
  induction built generalizing frames with
  | idle stays limit =>
      refine ⟨frames, stands.stays stays limit, ?_, ?_⟩
      all_goals obtain ⟨reach, trace, _, rfl⟩ := stays
      · exact fresh
      · exact id
  | append first second ihFirst ihSecond =>
      obtain ⟨_, between, none, back⟩ := ihFirst stands fresh
      obtain ⟨frames', last, none', back'⟩ := ihSecond between none
      exact ⟨frames', last, none', fun path => back (back' path)⟩
  | @token s more field kind proper named =>
      obtain ⟨standing, prevEnd, reuse, _, _⟩ := stands.moved
      refine ⟨s.lexer.frames, standing, by rw [reuse, fresh], fun path => ?_⟩
      rw [prevEnd] at path
      have stops := stands.token
      have frames_eq : s.lexer.frames = (State.landing c s.prevEnd frames).lexer.frames := by
        rw [stands.cursor]
      rw [frames_eq, stops] at path
      exact .token stands.prevEnd_le (by rw [← stops]; exact more) path
  | missing s field label => exact ⟨frames, stands, fresh, id⟩
  | wrap inner some proper field ih => exact ih stands fresh
  | relabel inner field ih => exact ih stands fresh
  | statement complete inner ih => exact ih stands fresh
  | flush led moved inner ih => exact ih stands.flush fresh
  | reuse calm base pending taken fits field =>
      have offered := (ReuseIndex.mem_of_take? taken).1
      rw [fresh] at offered
      contradiction

end MqTree.Parser
