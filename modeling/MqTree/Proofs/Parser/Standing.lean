import MqTree.Parser.Step
import MqTree.Proofs.Parser.Landing

namespace MqTree

theorem ReuseIndex.mem_of_take? {index rest : ReuseIndex} {start : Int64} {sub : Subtree}
    (found : index.take? start = some (sub, rest)) :
    (start, sub) ∈ index.entries ∧ rest.entries ⊆ index.entries := by
  unfold ReuseIndex.take? at found
  obtain ⟨other, present, made⟩ := Option.map_eq_some_iff.mp found
  obtain ⟨rfl, rfl⟩ := Prod.mk.inj made
  obtain ⟨before, after, split, _⟩ := List.lookup_eq_some_iff.mp present
  refine ⟨?_, List.filter_sublist.subset⟩
  rw [split]
  exact List.mem_append_right _ List.mem_cons_self

structure Fits (size : Nat) (start : Int) (sub : Subtree) : Prop where
  sound : sub.Sound
  positive : 0 < sub.length
  inside : start + sub.length ≤ size
  limit : start + sub.length + sub.scope.lookahead ≤ size + 1

def ReuseIndex.Fit (size : Nat) (index : ReuseIndex) : Prop :=
  ∀ start : Nat, start ≤ size → ∀ sub, (Int64.ofNat start, sub) ∈ index.entries →
    Fits size start sub

end MqTree

namespace MqTree.Parser

/-- The state is the landing behind the last token, but for how far was looked,
what is left to reuse, and comments that were handed on already. -/
structure Stands (c : Context) (frames : List Frame) (s : State) : Prop where
  prevEnd_le : s.prevEnd ≤ c.src.size
  cursor : s.lexer.toCursor = (State.landing c s.prevEnd frames).lexer.toCursor
  token : s.token = (State.landing c s.prevEnd frames).token
  terminal : s.terminal = (State.landing c s.prevEnd frames).terminal
  atBase : s.atBase = (State.landing c s.prevEnd frames).atBase
  pending : s.pending = (State.landing c s.prevEnd frames).pending ∨ s.pending = []
  seen : (State.landing c s.prevEnd frames).lexer.reach ≤ s.lexer.reach
  reach_le : s.lexer.reach ≤ c.src.size + 1

namespace State

def moved (c : Context) (s : State) : State :=
  State.advance c { s with pending := [], prevEnd := s.token.stop }

theorem moved_advances {c : Context} {s : State} (inside : s.lexer.offset ≤ c.src.size) :
    Advances c { s with pending := [], prevEnd := s.token.stop } (s.moved c) :=
  advance_advances inside

@[simp] theorem consume_snd (c : Context) (s : State) (field kind : String) (named : Bool) :
    (s.consume c field kind named).2 = s.moved c := rfl

@[simp] theorem consume_fst (c : Context) (s : State) (field kind : String) (named : Bool) :
    (s.consume c field kind named).1 =
      s.pending ++ [⟨field, s.token.start, .ofToken kind named s.token⟩] := rfl

end State

def Stays (s r : State) : Prop :=
  ∃ reach trace, s.lexer.reach ≤ reach ∧
    r = { s with lexer := ⟨s.lexer.toCursor, reach⟩, trace := trace }

namespace Stays

variable {s r q : State}

theorem refl (s : State) : Stays s s := ⟨s.lexer.reach, s.trace, Nat.le_refl _, rfl⟩

theorem trans (first : Stays s r) (second : Stays r q) : Stays s q := by
  obtain ⟨reach, trace, le, rfl⟩ := first
  obtain ⟨reach', trace', le', rfl⟩ := second
  exact ⟨reach', trace', Nat.le_trans le le', rfl⟩

theorem log (s : State) (e : Event) : Stays s (s.log e) :=
  ⟨s.lexer.reach, e :: s.trace, Nat.le_refl _, rfl⟩

theorem rewind (reach : s.lexer.reach ≤ r.lexer.reach) (reuse : r.reuse = s.reuse) :
    Stays s (r.rewind s) := by
  refine ⟨r.lexer.reach, r.trace, reach, ?_⟩
  rw [State.rewind, reuse]
  rfl

end Stays

namespace Stands

variable {c : Context} {frames : List Frame} {s r : State}

theorem reached (stands : Stands c frames s) : Reached c frames s := by
  have landed := State.landing_reached frames stands.prevEnd_le
  exact
    { terminal := by rw [stands.terminal, stands.token]; exact landed.terminal
      notComment := by rw [stands.token]; exact landed.notComment
      atBase := by rw [stands.atBase]; exact landed.atBase
      opened := by rw [stands.cursor, stands.token]; exact landed.opened
      kind := by rw [stands.token]; exact landed.kind
      lit := by rw [stands.token]; exact landed.lit
      stop := by rw [stands.token]; exact landed.stop
      solid := by rw [stands.token]; exact landed.solid
      offset := by rw [Lexer.offset, stands.cursor, stands.token]; exact landed.offset
      start_le := by rw [stands.token]; exact landed.start_le
      looked := by
        rw [stands.token]
        exact Nat.le_trans landed.looked stands.seen
      counted := by rw [stands.cursor]; exact landed.counted
      placed := by rw [stands.token]; exact landed.placed }

theorem spread (stands : Stands c frames s) : Spread s.prevEnd s.token.start s.pending := by
  have landed := State.landing_spread frames stands.prevEnd_le
  rw [← stands.token] at landed
  rcases stands.pending with own | none
  · rwa [own]
  · rw [none]
    exact landed.low_le

theorem comments (stands : Stands c frames s) :
    ∀ it ∈ s.pending, ∃ token, it = commentItem token := by
  rcases stands.pending with own | none
  · rw [own]
    exact State.landing_comments frames stands.prevEnd_le
  · rw [none]
    intro it member
    contradiction

theorem prevEnd_le_start (stands : Stands c frames s) : s.prevEnd ≤ s.token.start :=
  Int.ofNat_le.mp stands.spread.low_le

theorem prevEnd_lt_reach (stands : Stands c frames s) : s.prevEnd < s.lexer.reach := by
  have reached := stands.reached
  have looked := reached.looked
  have read := Lexeme.lt_read_reach frames reached.start_le
  have before := stands.prevEnd_le_start
  omega

theorem frames_eq_nil (stands : Stands c frames s) (base : s.atBase = true) : frames = [] := by
  rw [stands.reached.atBase] at base
  exact List.isEmpty_iff.mp base

theorem stays (stands : Stands c frames s) (stay : Stays s r)
    (limit : r.lexer.reach ≤ c.src.size + 1) : Stands c frames r := by
  obtain ⟨reach, trace, further, rfl⟩ := stay
  exact { stands with seen := Nat.le_trans stands.seen further, reach_le := limit }

theorem flush (stands : Stands c frames s) : Stands c frames { s with pending := [] } :=
  { stands with pending := Or.inr rfl }

theorem advance (inside : s.lexer.offset ≤ c.src.size) (counted : s.lexer.place.Counted c.src)
    (pending : s.pending = []) (prevEnd : s.prevEnd = s.lexer.offset)
    (limit : s.lexer.reach ≤ c.src.size + 1) :
    Stands c s.lexer.frames (s.advance c) ∧
      (s.advance c).prevEnd = s.prevEnd ∧ (s.advance c).reuse = s.reuse ∧
      (s.advance c).pending = (State.landing c s.prevEnd s.lexer.frames).pending ∧
      s.lexer.reach ≤ (s.advance c).lexer.reach := by
  have looked := State.landing_reach_le s.lexer.frames inside
  rw [State.advance_eq_landing inside counted pending]
  simp only [prevEnd]
  refine ⟨?_, trivial, trivial, trivial, Nat.le_max_left _ _⟩
  exact
    { prevEnd_le := inside
      cursor := rfl
      token := rfl
      terminal := rfl
      atBase := rfl
      pending := Or.inl rfl
      seen := Nat.le_max_right _ _
      reach_le := Nat.max_le.mpr ⟨limit, looked⟩ }

theorem initial (c : Context) (reuse : ReuseIndex) :
    Stands c [] (State.initial c reuse) ∧ (State.initial c reuse).prevEnd = 0 ∧
      (State.initial c reuse).reuse = reuse ∧
      (State.initial c reuse).pending = (State.landing c 0 []).pending := by
  have made := @advance c (.unread reuse) (Nat.zero_le _) (Place.counted_origin c.src) rfl rfl
    (Nat.zero_le _)
  exact ⟨made.1, made.2.1, made.2.2.1, made.2.2.2.1⟩

theorem moved (stands : Stands c frames s) :
    Stands c s.lexer.frames (s.moved c) ∧ (s.moved c).prevEnd = s.token.stop ∧
      (s.moved c).reuse = s.reuse ∧
      (s.moved c).pending = (State.landing c s.token.stop s.lexer.frames).pending ∧
      s.lexer.reach ≤ (s.moved c).lexer.reach := by
  have reached := stands.reached
  apply advance (s := { s with pending := [], prevEnd := s.token.stop })
  · rw [reached.offset]
    exact reached.start_le_stop.2
  · exact reached.counted
  · rfl
  · exact reached.offset.symm
  · exact stands.reach_le

end Stands

section

variable (c : Context) (trial : Bool)

theorem State.advanceUpTo_speculating (n : Nat) (s : State) :
    s.advanceUpTo { c with speculating := trial } n = s.advanceUpTo c n := by
  induction n generalizing s with
  | zero => rfl
  | succ n ih => rw [State.advanceUpTo_succ, State.advanceUpTo_succ, ih]

theorem State.moved_speculating (s : State) :
    s.moved { c with speculating := trial } = s.moved c :=
  State.advanceUpTo_speculating c trial _ _

theorem State.landing_speculating (stop : Nat) (frames : List Frame) :
    State.landing { c with speculating := trial } stop frames = State.landing c stop frames :=
  State.advanceUpTo_speculating c trial _ _

variable {c trial} {frames : List Frame} {s : State}

theorem Stands.speculating (stands : Stands c frames s) :
    Stands { c with speculating := trial } frames s := by
  obtain ⟨prevEnd_le, cursor, token, terminal, atBase, pending, seen, reach_le⟩ := stands
  rw [← State.landing_speculating c trial] at cursor token terminal atBase pending seen
  exact ⟨prevEnd_le, cursor, token, terminal, atBase, pending, seen, reach_le⟩

theorem Stands.of_speculating (stands : Stands { c with speculating := trial } frames s) :
    Stands c frames s := by
  obtain ⟨prevEnd_le, cursor, token, terminal, atBase, pending, seen, reach_le⟩ := stands
  rw [State.landing_speculating c trial] at cursor token terminal atBase pending seen
  exact ⟨prevEnd_le, cursor, token, terminal, atBase, pending, seen, reach_le⟩

end

def State.behind (c : Context) (s : State) (sub : Subtree) (reuse : ReuseIndex) : State :=
  State.advance c
    { s with
      lexer := Lexer.touch
        ⟨⟨s.lexer.place.moveTo c.src (s.token.start + sub.length).toNat, []⟩, s.lexer.reach⟩
        (s.token.start + sub.length + sub.scope.lookahead)
      prevEnd := (s.token.start + sub.length).toNat
      reuse
      trace := .reused s.token.start sub :: s.trace }

theorem State.behind_eq (c : Context) (s : State) (sub : Subtree) (reuse : ReuseIndex) :
    ∃ base : State, s.behind c sub reuse = base.advance c ∧
      base.lexer.place = s.lexer.place.moveTo c.src (s.token.start + sub.length).toNat ∧
      base.lexer.offset = (s.token.start + sub.length).toNat ∧ base.lexer.frames = [] ∧
      base.lexer.reach =
        max s.lexer.reach (s.token.start + sub.length + sub.scope.lookahead).toNat ∧
      base.pending = s.pending ∧ base.prevEnd = (s.token.start + sub.length).toNat ∧
      base.reuse = reuse :=
  ⟨_, rfl, rfl, Place.index_moveTo .., rfl, rfl, rfl, rfl, rfl⟩

theorem reuse?_eq {c : Context} {field : String} {s : State}
    {found : Except Violation (Item × State)} (offered : reuse? c field s = some found) :
    c.speculating = false ∧ s.atBase = true ∧ ∃ sub reuse,
      s.reuse.take? (Int64.ofNat s.token.start) = some (sub, reuse) ∧
      (s.token.start + sub.length ≤ c.src.size → 0 < sub.length →
        found = .ok (⟨field, s.token.start, sub⟩, s.behind c sub reuse)) := by
  unfold reuse? at offered
  split at offered
  · contradiction
  · next allowed =>
      rw [Bool.or_eq_true, not_or, Bool.not_eq_true, Bool.not_eq_true', Bool.not_eq_false]
        at allowed
      obtain ⟨⟨sub, reuse⟩, taken, made⟩ := Option.map_eq_some_iff.mp offered
      refine ⟨allowed.1, allowed.2, sub, reuse, taken, ?_⟩
      intro inside positive
      rw [← made]
      have range : 0 ≤ (s.token.start : Int) + sub.length ∧
          (s.token.start : Int) + sub.length ≤ c.src.size := ⟨by omega, inside⟩
      simp only [Lexer.seek, if_pos range]
      rfl

theorem Stands.behind {c : Context} {frames : List Frame} {s : State} {sub : Subtree}
    (stands : Stands c frames s) (pending : s.pending = []) (reuse : ReuseIndex)
    (fits : Fits c.src.size s.token.start sub) :
    Stands c [] (s.behind c sub reuse) ∧
      ((s.behind c sub reuse).prevEnd : Int) = s.token.start + sub.length ∧
      (s.behind c sub reuse).reuse = reuse ∧
      (s.behind c sub reuse).pending =
        (State.landing c (s.behind c sub reuse).prevEnd []).pending ∧
      s.lexer.reach ≤ (s.behind c sub reuse).lexer.reach ∧
      s.token.start + sub.length + sub.scope.lookahead ≤ (s.behind c sub reuse).lexer.reach := by
  have inside := fits.inside
  have limit := fits.limit
  have positive := fits.positive
  have reach := stands.reach_le
  obtain ⟨base, eq, place, offset, frames, touched, items, stop, index⟩ :=
    State.behind_eq c s sub reuse
  have made := Stands.advance (c := c) (s := base) (by rw [offset]; omega)
    (place ▸ stands.reached.counted.moveTo _) (items.trans pending) (stop.trans offset.symm)
    (by rw [touched]; omega)
  rw [← eq, frames, stop, index] at made
  obtain ⟨standing, prevEnd, kept, comments, further⟩ := made
  rw [prevEnd]
  refine ⟨standing, by omega, kept, comments, ?_, ?_⟩
  · omega
  · omega

end MqTree.Parser
