import MqTree.Proofs.Lexer.Next

namespace MqTree

open Text

/-! The tokens of a text stand in it one behind the other, and between them
there are only blanks. -/

namespace Text

def blanks : List UInt8 := [32, 9, 13, 10, 12, 11]

def breaks (t : Text) (offset : Nat) : List Nat :=
  (List.range offset).filter fun i => t[i]? == some newline

/-- How far an offset is behind the last newline before it, or behind a newline
in front of the text. -/
def columnOf (t : Text) (offset : Nat) : Nat :=
  match (t.breaks offset).getLast? with
  | some last => offset - last
  | none => offset + 1

theorem breaks_succ (t : Text) (offset : Nat) :
    t.breaks (offset + 1) =
      t.breaks offset ++ if t[offset]? = some newline then [offset] else [] := by
  rw [breaks, List.range_succ, List.filter_append, List.filter_singleton]
  by_cases ends : t[offset]? = some newline
  · rw [if_pos ends, ends]
    rfl
  · rw [if_neg ends, beq_eq_false_iff_ne.mpr ends]
    rfl

end Text

theorem isBlank_iff {b : UInt8} : isBlank b = true ↔ b ∈ blanks := by
  simp only [isBlank, blanks, Bool.or_eq_true, Bool.and_eq_true, beq_iff_eq, decide_eq_true_iff,
    List.mem_cons, List.not_mem_nil, or_false, UInt8.le_iff_toNat_le, ← UInt8.toNat_inj]
  simp only [UInt8.reduceToNat]
  omega

namespace Place

theorem advance_breaks (t : Text) (n : Nat) :
    (advance t n origin).line = (t.breaks n).length + 1 ∧
      (advance t n origin).lineStart = ((t.breaks n).getLast?.map (· + 1)).getD 0 := by
  induction n with
  | zero => exact ⟨rfl, rfl⟩
  | succ n ih =>
      have index : (advance t n origin).index = n := by simp [origin]
      rw [advance_add, breaks_succ, advance, advance, next, index]
      by_cases ends : t[n]? = some newline
      · rw [if_pos ends, if_pos ends, List.getLast?_append, List.length_append]
        exact ⟨congrArg (· + 1) ih.1, rfl⟩
      · rw [if_neg ends, if_neg ends, List.append_nil]
        exact ih

/-- A place is counted from the start of the text if its line has the number and
the start that the newlines before it say. -/
theorem counted_iff {t : Text} {p : Place} : p.Counted t ↔
    p.line = (t.breaks p.index).length + 1 ∧
      p.lineStart = ((t.breaks p.index).getLast?.map (· + 1)).getD 0 := by
  obtain ⟨line, start⟩ := advance_breaks t p.index
  have index : (advance t p.index origin).index = p.index := by
    rw [index_advance, origin, Nat.zero_add]
  rw [← line, ← start]
  constructor
  · intro counted
    exact ⟨congrArg Place.line counted, congrArg lineStart counted⟩
  · rintro ⟨own, ownStart⟩
    exact (Place.mk.injEq _ _ _ _ _ _).mpr ⟨index.symm, own, ownStart⟩

theorem Counted.point {t : Text} {p : Place} (counted : p.Counted t) :
    p.point = ⟨(t.breaks p.index).length + 1, t.columnOf p.index⟩ := by
  obtain ⟨line, start⟩ := counted_iff.mp counted
  rw [Place.point, line, start, columnOf]
  cases last : (t.breaks p.index).getLast? with
  | none => rfl
  | some i =>
      have before : i < p.index :=
        List.mem_range.mp (List.mem_filter.mp (List.mem_of_getLast? last)).1
      simp only [Option.map_some, Option.getD_some, Point.mk.injEq, true_and]
      omega

theorem newlines_pos (t : Text) (n i : Nat) :
    0 < newlines t n i ↔ ∃ k, i ≤ k ∧ k < i + n ∧ t[k]? = some newline := by
  induction n generalizing i with
  | zero =>
      constructor
      · intro none
        exact absurd none (Nat.lt_irrefl 0)
      · rintro ⟨k, above, below, _⟩
        omega
  | succ n ih =>
      rw [newlines]
      by_cases ends : t[i]? = some newline
      · rw [if_pos ends]
        exact iff_of_true (by omega) ⟨i, Nat.le_refl i, by omega, ends⟩
      · rw [if_neg ends, Nat.zero_add, ih]
        constructor
        · rintro ⟨k, above, below, found⟩
          exact ⟨k, by omega, by omega, found⟩
        · rintro ⟨k, above, below, found⟩
          have differs : k ≠ i := by
            rintro rfl
            exact ends found
          exact ⟨k, by omega, by omega, found⟩

end Place

structure Token.Behind (src : Text) (offset : Nat) (token : Token) : Prop where
  ahead : offset ≤ token.start
  order : token.start ≤ token.stop
  inside : token.stop ≤ src.size
  blank : ∀ i, offset ≤ i → i < token.start → ∃ b ∈ blanks, src[i]? = some b
  newline : token.newlineBefore = true ↔
    ∃ i, offset ≤ i ∧ i < token.start ∧ src[i]? = some Text.newline
  line : token.line = (src.breaks token.start).length + 1
  column : token.column = src.columnOf token.start

namespace Lexer

variable {src : Text} {l : Lexer}

theorem blank_before_opening {i : Nat} (above : l.offset ≤ i) (below : i < l.opening src) :
    ∃ b ∈ blanks, src[i]? = some b := by
  have passes : (src[i]?).any isBlank = true := by
    unfold opening at below
    split at below
    · omega
    · exact skipWhile_passes src isBlank above below
  obtain ⟨b, found, blank⟩ := (Option.any_eq_true _ _).mp passes
  exact ⟨b, isBlank_iff.mp blank, found⟩

theorem next_behind (counted : l.place.Counted src) (inside : l.offset ≤ src.size) :
    (l.next src).1.Behind src l.offset := by
  obtain ⟨ahead, order, within⟩ := next_within inside
  have place := (counted.moveTo (l.opening src)).point
  rw [Place.index_moveTo] at place
  refine ⟨ahead, order, within, ?_, ?_, ?_, ?_⟩
  · intro i above below
    rw [next_start] at below
    exact blank_before_opening above below
  · rw [next_newlineBefore, decide_eq_true_iff, Place.newlines_pos, next_start,
      Nat.add_sub_of_le (offset_le_opening src l)]
  · rw [next_start, next_eq]
    exact congrArg Point.line place
  · rw [next_start, next_eq]
    exact congrArg Point.column place

inductive Tiles (src : Text) : Nat → List Token → Prop
  | ended {offset : Nat} {token : Token} (next : token.Behind src offset)
      (kind : token.kind = .endOfInput) (last : token.start = src.size) : Tiles src offset [token]
  | token {offset : Nat} {token : Token} {rest : List Token} (next : token.Behind src offset)
      (kind : token.kind ≠ .endOfInput) (solid : token.start < token.stop)
      (later : Tiles src token.stop rest) : Tiles src offset (token :: rest)

theorem tokens_tiles {n : Nat} (counted : l.place.Counted src)
    (inside : l.offset ≤ src.size) (enough : src.size - l.offset < n) :
    Tiles src l.offset (l.tokens src n) := by
  induction n generalizing l with
  | zero => omega
  | succ n ih =>
      have next := next_behind counted inside
      rw [tokens_succ]
      cases ended : (l.next src).1.isEnd with
      | true =>
          rw [if_pos rfl]
          refine .ended next (beq_iff_eq.mp ended) ?_
          rw [next_start]
          exact (next_isEnd_iff inside).mp ended
      | false =>
          have solid := next_lt inside ended
          have offset : (l.next src).2.offset = (l.next src).1.stop := by
            rw [next_offset, next_stop]
          have ahead := next.ahead
          have within := next.inside
          rw [if_neg Bool.false_ne_true]
          refine .token next (beq_eq_false_iff_ne.mp ended) solid ?_
          -- A token that is not the end takes a byte, so the bound falls with what is left.
          rw [← offset]
          exact ih (next_counted counted inside).1 (by omega) (by omega)

namespace Tiles

variable {offset : Nat} {tokens : List Token}

theorem behind_of_mem (tiles : Tiles src offset tokens) :
    ∀ token ∈ tokens, ∃ before, offset ≤ before ∧ token.Behind src before := by
  induction tiles with
  | ended next =>
      exact List.forall_mem_singleton.mpr ⟨_, Nat.le_refl _, next⟩
  | token next kind solid later ih =>
      refine List.forall_mem_cons.mpr ⟨⟨_, Nat.le_refl _, next⟩, fun other member => ?_⟩
      obtain ⟨before, behind, own⟩ := ih other member
      have ahead := next.ahead
      exact ⟨before, by omega, own⟩

theorem ordered (tiles : Tiles src offset tokens) :
    tokens.Pairwise fun a b => a.stop ≤ b.start := by
  induction tiles with
  | ended => exact List.pairwise_singleton _ _
  | token next kind solid later ih =>
      refine List.pairwise_cons.mpr ⟨fun other member => ?_, ih⟩
      obtain ⟨before, behind, own⟩ := later.behind_of_mem other member
      exact Nat.le_trans behind own.ahead

theorem ends (tiles : Tiles src offset tokens) :
    ∃ front last, tokens = front ++ [last] ∧ last.kind = .endOfInput ∧ last.start = src.size ∧
      last.stop = src.size ∧ ∀ token ∈ front, token.kind ≠ .endOfInput ∧ token.start < token.stop := by
  induction tiles with
  | @ended offset token next kind last =>
      have order := next.order
      have inside := next.inside
      exact ⟨[], token, rfl, kind, last, by omega, fun _ none => absurd none List.not_mem_nil⟩
  | @token offset token rest next kind solid later ih =>
      obtain ⟨front, last, rfl, own, start, stop, others⟩ := ih
      exact ⟨token :: front, last, rfl, own, start, stop,
        List.forall_mem_cons.mpr ⟨⟨kind, solid⟩, others⟩⟩

theorem blank (tiles : Tiles src offset tokens) {i : Nat} (above : offset ≤ i)
    (below : i < src.size) (outside : ∀ token ∈ tokens, i < token.start ∨ token.stop ≤ i) :
    ∃ b ∈ blanks, src[i]? = some b := by
  induction tiles with
  | ended next kind last => exact next.blank i above (last ▸ below)
  | token next kind solid later ih =>
      obtain ⟨here, others⟩ := List.forall_mem_cons.mp outside
      rcases here with before | behind
      · exact next.blank i above before
      · exact ih behind others

theorem behind_of_split (tiles : Tiles src offset tokens) {front back : List Token} {token : Token}
    (split : tokens = front ++ token :: back) :
    token.Behind src ((front.map Token.stop).getLastD offset) := by
  induction tiles generalizing front with
  | ended next =>
      cases front with
      | nil =>
          obtain ⟨rfl, _⟩ := List.cons.inj split
          exact next
      | cons other front =>
          have none := (List.cons.inj split).2
          simp at none
  | token next kind solid later ih =>
      cases front with
      | nil =>
          obtain ⟨rfl, _⟩ := List.cons.inj split
          exact next
      | cons other front =>
          obtain ⟨rfl, rest⟩ := List.cons.inj split
          rw [List.map_cons, List.getLastD_cons]
          exact ih rest

end Tiles

structure Partition (src : Text) (offset : Nat) (tokens : List Token) : Prop where
  ordered : tokens.Pairwise fun a b => a.stop ≤ b.start
  inside : ∀ token ∈ tokens, offset ≤ token.start ∧ token.start ≤ token.stop ∧
    token.stop ≤ src.size
  solid : ∀ token ∈ tokens.dropLast, token.kind ≠ .endOfInput ∧ token.start < token.stop
  ended : ∃ last, tokens.getLast? = some last ∧ last.kind = .endOfInput ∧
    last.start = src.size ∧ last.stop = src.size
  blank : ∀ i, offset ≤ i → i < src.size →
    (∀ token ∈ tokens, i < token.start ∨ token.stop ≤ i) → ∃ b ∈ blanks, src[i]? = some b
  placed : ∀ token ∈ tokens, token.line = (src.breaks token.start).length + 1 ∧
    token.column = src.columnOf token.start
  newline : ∀ front token back, tokens = front ++ token :: back →
    (token.newlineBefore = true ↔ ∃ i, (front.map Token.stop).getLastD offset ≤ i ∧
      i < token.start ∧ src[i]? = some Text.newline)

theorem Partition.of_tiles {offset : Nat} {tokens : List Token}
    (tiles : Tiles src offset tokens) : Partition src offset tokens := by
  obtain ⟨front, last, split, kind, start, stop, others⟩ := tiles.ends
  refine ⟨tiles.ordered, ?_, ?_, ⟨last, ?_, kind, start, stop⟩, fun i => tiles.blank, ?_, ?_⟩
  · intro token member
    obtain ⟨before, behind, next⟩ := tiles.behind_of_mem token member
    exact ⟨Nat.le_trans behind next.ahead, next.order, next.inside⟩
  · rw [split, List.dropLast_concat]
    exact others
  · rw [split, List.getLast?_concat]
  · intro token member
    obtain ⟨before, _, next⟩ := tiles.behind_of_mem token member
    exact ⟨next.line, next.column⟩
  · intro front token back split
    exact (tiles.behind_of_split split).newline

/-- From every offset on, a text falls into tokens and blanks, and each token
knows where it stands. Reading on for longer finds nothing more. -/
theorem tokenize_partitions (src : Text) (offset : Nat) (inside : offset ≤ src.size) :
    ∃ l tokens, start src offset = .ok l ∧ tokenize src offset = .ok tokens ∧
      (∀ n, src.size < n → l.tokens src n = tokens) ∧ Partition src offset tokens := by
  have started : start src offset =
      .ok ⟨⟨Place.origin.moveTo src offset, []⟩, 0⟩ :=
    if_pos ⟨Int.natCast_nonneg offset, Int.ofNat_le.mpr inside⟩
  have counted := (Place.counted_origin src).moveTo offset
  have here : (⟨⟨Place.origin.moveTo src offset, []⟩, 0⟩ : Lexer).offset = offset :=
    Place.index_moveTo src _ offset
  refine ⟨_, _, started, by rw [tokenize, started]; rfl, ?_, ?_⟩
  · intro n enough
    exact tokens_eq_of_lt (by rw [here]; exact inside) (by omega) (by omega)
  · have tiles := tokens_tiles (n := src.size + 1) counted (by rw [here]; exact inside) (by omega)
    rw [here] at tiles
    exact .of_tiles tiles

def straddling : Text := Text.ofString "s\"a\n$$\x7b\" @"

theorem tokenize_partitions_straddling : 1 ≤ straddling.size ∧
    ∃ l tokens, start straddling 1 = .ok l ∧ tokenize straddling 1 = .ok tokens ∧
      (∀ n, straddling.size < n → l.tokens straddling n = tokens) ∧
      Partition straddling 1 tokens :=
  ⟨by decide, tokenize_partitions straddling 1 (by decide)⟩

end Lexer

end MqTree
