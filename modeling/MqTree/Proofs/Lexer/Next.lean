import MqTree.Proofs.Lexer.Bounds

namespace MqTree

open Text

namespace Frame

@[simp] theorem after_empty (frames : List Frame) : after "" frames = frames := by
  rcases frames with _ | ⟨_ | depth, rest⟩ <;> simp [after]

end Frame

def punctuationMarks : List String :=
  longOperators.map (·.2.2) ++ marks.map (·.2) ++ ["s\"", "\"", "$\x7b"]

def TokenKind.Spells (kind : TokenKind) (lit : String) : Prop :=
  match kind with
  | .keyword => lit ∈ keywords
  | .punctuation => lit ∈ punctuationMarks
  | _ => lit = ""

namespace Lexeme

private theorem spells_longOperator {a b : UInt8} {op : String}
    (found : longOperator? a b = some op) : op ∈ punctuationMarks := by
  obtain ⟨⟨x, y, op'⟩, member, made⟩ := List.exists_of_findSome?_eq_some found
  simp only [] at made
  split at made
  · rw [← Option.some.inj made]
    simp only [punctuationMarks, List.mem_append, List.mem_map]
    exact Or.inl (Or.inl ⟨_, member, rfl⟩)
  · contradiction

private theorem spells_mark {a : UInt8} {op : String} (found : mark? a = some op) :
    op ∈ punctuationMarks := by
  obtain ⟨⟨x, op'⟩, member, made⟩ := List.exists_of_findSome?_eq_some found
  simp only [] at made
  split at made
  · rw [← Option.some.inj made]
    simp only [punctuationMarks, List.mem_append, List.mem_map]
    exact Or.inl (Or.inr ⟨_, member, rfl⟩)
  · contradiction

private theorem word_spells (src : Text) (start : Nat) :
    (word src start).kind.Spells (word src start).lit := by
  unfold word
  simp only []
  split
  · show _ ∈ punctuationMarks
    simp [punctuationMarks]
  · split
    next keyword found =>
      obtain ⟨before, after, split, _⟩ := List.lookup_eq_some_iff.mp found
      have member :
          (src.extract start (src.skipWhile isWordByte (start + 1)), keyword) ∈ keywordTexts := by
        rw [split]
        exact List.mem_append_right _ List.mem_cons_self
      obtain ⟨w, known, made⟩ := List.mem_map.mp member
      show keyword ∈ keywords
      rw [← (Prod.mk.inj made).2]
      exact known
    · rfl

private theorem mark_spells (src : Text) (start : Nat) (first : UInt8) :
    (mark src start first).kind.Spells (mark src start first).lit := by
  unfold mark
  split
  next op found =>
    obtain ⟨b, _, made⟩ := Option.bind_eq_some_iff.mp found
    exact spells_longOperator made
  · split
    next op found => exact spells_mark found
    · rfl

theorem read_spells (src : Text) (frames : List Frame) (start : Nat) :
    (read src frames start).kind.Spells (read src frames start).lit := by
  unfold read
  split
  · unfold ofString
    split
    · rfl
    · split
      · show _ ∈ punctuationMarks
        simp [punctuationMarks]
      · split
        · rfl
        · split
          · show _ ∈ punctuationMarks
            simp [punctuationMarks]
          · rfl
  · unfold ofCode
    split
    · rfl
    · split
      · rfl
      · split
        · unfold plainString
          split <;> rfl
        · split
          · unfold number
            simp only []
            split
            · split <;> rfl
            · rfl
          · split
            · exact word_spells src start
            · exact mark_spells src start _

end Lexeme

namespace Lexer

theorem start_eq {src : Text} {pos : Int} (inside : 0 ≤ pos ∧ pos ≤ src.size) :
    start src pos = .ok ⟨⟨Place.origin.moveTo src pos.toNat, []⟩, 0⟩ :=
  if_pos inside

def opening (src : Text) (l : Lexer) : Nat :=
  match l.frames with
  | .string :: _ => l.offset
  | _ => src.skipWhile isBlank l.offset

def lexeme (src : Text) (l : Lexer) : Lexeme := Lexeme.read src l.frames (l.opening src)

variable {src : Text} {l : Lexer}

theorem offset_le_opening (src : Text) (l : Lexer) : l.offset ≤ l.opening src := by
  unfold opening
  split
  · exact Nat.le_refl _
  · exact le_skipWhile src isBlank _

theorem opening_le (inside : l.offset ≤ src.size) : l.opening src ≤ src.size := by
  unfold opening
  split
  · exact inside
  · exact skipWhile_le src isBlank inside

private theorem line_differs {p : Place} {index : Nat} (ahead : p.index ≤ index) :
    (p.line != (p.moveTo src index).line) =
      decide (0 < Place.newlines src (index - p.index) p.index) := by
  rw [Place.line_moveTo ahead, Bool.eq_iff_iff, bne_iff_ne, decide_eq_true_iff]
  omega

theorem next_eq (src : Text) (l : Lexer) :
    l.next src =
      l.emit src (l.place.moveTo src (l.opening src))
        (decide (0 < Place.newlines src (l.opening src - l.offset) l.offset))
        (l.lexeme src) := by
  have ahead := offset_le_opening src l
  unfold next lexeme opening at *
  cases frames : l.frames with
  | nil =>
      simp only [frames] at ahead
      simp only [Place.index_moveTo, Lexeme.read, line_differs ahead]
      rfl
  | cons frame rest =>
      cases frame with
      | string =>
          simp only [Lexeme.read, offset, Nat.sub_self, Place.newlines, Place.moveTo_self]
          rfl
      | hole depth =>
          simp only [frames] at ahead
          simp only [Place.index_moveTo, Lexeme.read, line_differs ahead]
          rfl

@[simp] theorem next_kind : (l.next src).1.kind = (l.lexeme src).kind := by
  rw [next_eq]
  rfl

@[simp] theorem next_lit : (l.next src).1.lit = (l.lexeme src).lit := by
  rw [next_eq]
  rfl

@[simp] theorem next_start : (l.next src).1.start = l.opening src := by
  rw [next_eq]
  exact Place.index_moveTo src l.place _

@[simp] theorem next_stop : (l.next src).1.stop = (l.lexeme src).stop := by
  rw [next_eq]
  rfl

@[simp] theorem next_newlineBefore : (l.next src).1.newlineBefore =
    decide (0 < Place.newlines src (l.opening src - l.offset) l.offset) := by
  rw [next_eq]
  rfl

@[simp] theorem next_offset : (l.next src).2.offset = (l.lexeme src).stop := by
  rw [next_eq]
  exact Place.index_moveTo src _ _

@[simp] theorem next_frames :
    (l.next src).2.frames = Frame.after (l.lexeme src).lit l.frames := by
  rw [next_eq]
  rfl

@[simp] theorem next_reach : (l.next src).2.reach = max l.reach (l.lexeme src).reach := by
  rw [next_eq]
  rfl

theorem next_of_cursor {m : Lexer} (cursor : m.toCursor = l.toCursor) :
    (m.next src).1 = (l.next src).1 ∧
      (m.next src).2 = ⟨(l.next src).2.toCursor, max m.reach (l.lexeme src).reach⟩ := by
  obtain ⟨place, reach⟩ := m
  obtain ⟨place', reach'⟩ := l
  obtain rfl : place = place' := cursor
  rw [next_eq, next_eq]
  exact ⟨rfl, rfl⟩

/-- A lexer whose line is counted from the start of the text goes on so, and
the position of its token is what the line index says. -/
theorem next_counted (counted : l.place.Counted src) (inside : l.offset ≤ src.size) :
    (l.next src).2.place.Counted src ∧
      (LineIndex.ofText src).point (l.next src).1.start =
        ⟨(l.next src).1.line, (l.next src).1.column⟩ := by
  have there := counted.moveTo (l.opening src)
  have point := LineIndex.point_eq_of_counted there (by
    rw [Place.index_moveTo]
    exact opening_le inside)
  rw [Place.index_moveTo] at point
  refine ⟨?_, ?_⟩
  · rw [next_eq]
    exact there.moveTo _
  · rw [next_start, point, next_eq]
    rfl

theorem next_within (inside : l.offset ≤ src.size) :
    l.offset ≤ (l.next src).1.start ∧ (l.next src).1.start ≤ (l.next src).1.stop ∧
      (l.next src).1.stop ≤ src.size := by
  have opened := opening_le inside
  obtain ⟨above, below, _⟩ := Lexeme.read_within l.frames opened
  rw [next_start, next_stop]
  exact ⟨offset_le_opening src l, above, below⟩

theorem next_isEnd_iff (inside : l.offset ≤ src.size) :
    (l.next src).1.isEnd = true ↔ l.opening src = src.size := by
  rw [Token.isEnd, beq_iff_eq, next_kind]
  exact Lexeme.read_kind_eq_end_iff l.frames (opening_le inside)

theorem next_lt (inside : l.offset ≤ src.size) (more : (l.next src).1.isEnd = false) :
    (l.next src).1.start < (l.next src).1.stop := by
  have before : l.opening src < src.size := by
    apply Nat.lt_of_le_of_ne (opening_le inside)
    intro ended
    rw [(next_isEnd_iff inside).mpr ended] at more
    contradiction
  rw [next_start, next_stop]
  exact (Lexeme.read_bounded l.frames before).stop_gt

theorem next_reach_le (inside : l.offset ≤ src.size) :
    (l.next src).2.reach ≤ max l.reach (src.size + 1) := by
  have limit : (l.lexeme src).reach ≤ src.size + 1 :=
    (Lexeme.read_within l.frames (opening_le inside)).2.2.2
  rw [next_reach]
  omega

theorem tokens_succ (src : Text) (n : Nat) (l : Lexer) :
    l.tokens src (n + 1) =
      if (l.next src).1.isEnd then [(l.next src).1]
      else (l.next src).1 :: (l.next src).2.tokens src n := rfl

theorem tokens_eq_of_lt {n m : Nat} (inside : l.offset ≤ src.size)
    (n_gt : src.size - l.offset < n) (m_gt : src.size - l.offset < m) :
    tokens src n l = tokens src m l := by
  induction n generalizing m l with
  | zero => omega
  | succ n ih =>
      obtain ⟨m, rfl⟩ : ∃ k, m = k + 1 := ⟨m - 1, by omega⟩
      simp only [tokens]
      cases ended : (l.next src).1.isEnd with
      | true => simp
      | false =>
          have step := next_within inside
          have progress := next_lt inside ended
          have offset := @next_offset src l
          rw [next_stop] at step progress
          simp only [Bool.false_eq_true, if_false]
          rw [ih (m := m) (by omega) (by omega) (by omega)]

theorem dropLast_tokens (inside : l.offset ≤ src.size) :
    (l.tokens src (src.size + 1)).dropLast =
      if (l.next src).1.isEnd then []
      else (l.next src).1 :: ((l.next src).2.tokens src (src.size + 1)).dropLast := by
  rw [tokens_succ]
  cases ended : (l.next src).1.isEnd with
  | true => rfl
  | false =>
      have step := next_within inside
      have progress := next_lt inside ended
      have offset := @next_offset src l
      rw [next_stop] at step progress
      have rest := @tokens_eq_of_lt src (l.next src).2 src.size (src.size + 1) (by omega)
        (by omega) (by omega)
      have some : tokens src (src.size + 1) (l.next src).2 ≠ [] := by
        rw [tokens_succ]
        split <;> exact List.cons_ne_nil _ _
      simp only [Bool.false_eq_true, if_false]
      rw [rest, List.dropLast_cons_of_ne_nil some]

end Lexer

end MqTree
