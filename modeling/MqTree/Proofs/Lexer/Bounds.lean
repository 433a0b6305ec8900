import MqTree.Lexer.Basic
import MqTree.Proofs.Text.Scan

namespace MqTree

open Text

/-! Every lexeme takes at least one byte, stays inside the text, and was not
judged by more than the byte behind the text. -/

namespace Text

theorem lt_size_of_getElem? {t : Text} {i : Nat} {b : UInt8} (found : t[i]? = some b) :
    i < t.size :=
  (Array.getElem?_eq_some_iff.mp found).1

end Text

namespace Rune

theorem value?_bound {t : Text} {i n payload v : Nat} {lo hi : UInt8}
    (found : value? t i lo hi payload n = some v) : i + n ≤ t.size ∨ n = 0 := by
  induction n generalizing i payload lo hi with
  | zero => exact Or.inr rfl
  | succ n ih =>
      left
      obtain ⟨low, tail, rest⟩ := Option.bind_eq_some_iff.mp found
      obtain ⟨b, byteFound, _⟩ := Option.bind_eq_some_iff.mp tail
      have := lt_size_of_getElem? byteFound
      rcases ih rest with bound | rfl <;> omega

theorem at?_width {t : Text} {i : Nat} {r : Rune} (found : at? t i = some r) :
    0 < r.width ∧ i + r.width ≤ t.size := by
  obtain ⟨b, byteFound, rfl⟩ := Option.map_eq_some_iff.mp found
  have inside := lt_size_of_getElem? byteFound
  by_cases ascii : b < 0x80
  · rw [if_pos ascii]
    exact ⟨Nat.one_pos, inside⟩
  · rw [if_neg ascii]
    cases leading : lead? b with
    | none => exact ⟨Nat.one_pos, inside⟩
    | some parts =>
        obtain ⟨n, payload, lo, hi⟩ := parts
        simp only []
        cases whole : value? t (i + 1) lo hi payload n with
        | none => exact ⟨Nat.one_pos, inside⟩
        | some v =>
            refine ⟨Nat.succ_pos n, ?_⟩
            simp only []
            rcases value?_bound whole with bound | rfl <;> omega

end Rune

namespace Lexeme

structure Bounded (src : Text) (start : Nat) (x : Lexeme) : Prop where
  stop_gt : start < x.stop
  stop_le : x.stop ≤ src.size
  stop_le_reach : x.stop ≤ x.reach
  reach_le : x.reach ≤ src.size + 1
  kind_ne : x.kind ≠ .endOfInput

theorem seen_le (src : Text) (i : Nat) : seen src i ≤ src.size + 1 := by
  unfold seen
  omega

theorem le_seen (src : Text) {i : Nat} (inside : i ≤ src.size) : i + 1 ≤ seen src i := by
  unfold seen
  omega

variable {src : Text} {start : Nat}

theorem comment_bounded (inside : start < src.size) : (comment src start).Bounded src start := by
  have above := le_skipWhile src (· != newline) (start + 1)
  have below := skipWhile_le src (· != newline) (i := start + 1) inside
  refine ⟨?_, below, ?_, seen_le src _, by simp [comment]⟩
  · exact above
  · exact Nat.le_of_succ_le (le_seen src below)

theorem number_bounded (inside : start < src.size) : (number src start).Bounded src start := by
  have above := le_skipWhile src isDigit (start + 1)
  have below := skipWhile_le src isDigit (i := start + 1) inside
  unfold number
  simp only []
  split
  next point =>
    have pointInside := lt_size_of_getElem? point
    split
    next digit =>
      have digitInside : src.skipWhile isDigit (start + 1) + 1 < src.size := by
        cases found : src[src.skipWhile isDigit (start + 1) + 1]? with
        | none =>
            rw [found] at digit
            contradiction
        | some b => exact lt_size_of_getElem? found
      have farAbove := le_skipWhile src isDigit (src.skipWhile isDigit (start + 1) + 2)
      have farBelow := skipWhile_le src isDigit
        (i := src.skipWhile isDigit (start + 1) + 2) (by omega)
      exact ⟨by simp only []; omega, farBelow, Nat.le_of_succ_le (le_seen src farBelow),
        seen_le src _, by simp⟩
    next =>
      refine ⟨above, below, ?_, seen_le src _, by simp⟩
      have := le_seen src (i := src.skipWhile isDigit (start + 1) + 1) (by omega)
      simp only []
      omega
  next => exact ⟨above, below, Nat.le_of_succ_le (le_seen src below), seen_le src _, by simp⟩

theorem word_bounded (inside : start < src.size) : (word src start).Bounded src start := by
  have above := le_skipWhile src isWordByte (start + 1)
  have below := skipWhile_le src isWordByte (i := start + 1) inside
  unfold word
  simp only []
  split
  next quoted =>
    have := lt_size_of_getElem? quoted.2
    exact ⟨by simp only []; omega, by simp only []; omega, Nat.le_refl _, by simp only []; omega,
      by simp⟩
  next =>
    cases keywordTexts.lookup (src.extract start (src.skipWhile isWordByte (start + 1))) with
    | none => exact ⟨above, below, Nat.le_of_succ_le (le_seen src below), seen_le src _, by simp⟩
    | some keyword =>
        exact ⟨above, below, Nat.le_of_succ_le (le_seen src below), seen_le src _, by simp⟩

theorem closingQuote?_spec {n i quote : Nat} (found : closingQuote? src n i = some quote) :
    i ≤ quote ∧ src[quote]? = some (byte '"') := by
  induction n generalizing i with
  | zero => simp [closingQuote?] at found
  | succ n ih =>
      rw [closingQuote?] at found
      cases here : src[i]? with
      | none => simp [here] at found
      | some b =>
          simp only [here] at found
          split at found
          next isQuote =>
            rw [← Option.some.inj found, here, isQuote]
            exact ⟨Nat.le_refl i, rfl⟩
          next =>
            obtain ⟨later, atQuote⟩ := ih found
            refine ⟨?_, atQuote⟩
            split at later <;> omega

theorem plainString_bounded (quote : src[start]? = some (byte '"')) :
    (plainString src start).Bounded src start := by
  have inside := lt_size_of_getElem? quote
  unfold plainString
  cases closing : closingQuote? src (src.size - start) (start + 1) with
  | some stop =>
      obtain ⟨later, atQuote⟩ := closingQuote?_spec closing
      have := lt_size_of_getElem? atQuote
      exact ⟨by simp only []; omega, by simp only []; omega, Nat.le_refl _, by simp only []; omega,
        by simp⟩
  | none =>
      have above : start < src.skipWhile (· != newline) start := by
        apply lt_skipWhile
        rw [quote]
        decide
      have below := skipWhile_le src (· != newline) (Nat.le_of_lt inside)
      exact ⟨above, below, by simp only []; omega, Nat.le_refl _, by simp⟩

theorem mark_bounded (inside : start < src.size) (first : UInt8) :
    (mark src start first).Bounded src start := by
  unfold mark
  cases two : (src[start + 1]?).bind (longOperator? first) with
  | some op =>
      obtain ⟨b, found, _⟩ := Option.bind_eq_some_iff.mp two
      have := lt_size_of_getElem? found
      exact ⟨by simp only []; omega, by simp only []; omega, Nat.le_refl _, by simp only []; omega,
        by simp⟩
  | none =>
      have looked := le_seen src (i := start + 1) inside
      have limit := seen_le src (start + 1)
      simp only []
      cases mark? first with
      | some op => exact ⟨by simp only []; omega, by simp only []; omega, by simp only []; omega, limit, by simp⟩
      | none =>
          cases rune : Rune.at? src start with
          | none =>
              simp only [Option.map_none, Option.getD_none]
              exact ⟨Nat.lt_succ_self start, Nat.succ_le_of_lt inside, Nat.le_max_right _ _,
                Nat.max_le.mpr ⟨limit, by omega⟩, by simp⟩
          | some r =>
              have width := Rune.at?_width rune
              simp only [Option.map_some, Option.getD_some]
              exact ⟨by simp only []; omega, by simp only []; omega, by simp only []; omega,
                by simp only []; omega, by simp⟩

theorem ofCode_bounded (inside : start < src.size) : (ofCode src start).Bounded src start := by
  unfold ofCode
  rw [Array.getElem?_eq_getElem inside]
  simp only []
  split
  · exact comment_bounded inside
  · split
    next isQuote =>
      exact plainString_bounded (by rw [Array.getElem?_eq_getElem inside, isQuote])
    next =>
      split
      · exact number_bounded inside
      · split
        · exact word_bounded inside
        · exact mark_bounded inside _

theorem contentEnd_bounds (src : Text) (n i : Nat) (inside : i ≤ src.size) :
    i ≤ contentEnd src n i ∧ contentEnd src n i ≤ src.size := by
  induction n generalizing i with
  | zero => exact ⟨Nat.le_refl i, inside⟩
  | succ n ih =>
      rw [contentEnd]
      cases here : src[i]? with
      | none => exact ⟨Nat.le_refl i, inside⟩
      | some b =>
          have below := lt_size_of_getElem? here
          simp only []
          split
          · exact ⟨Nat.le_refl i, inside⟩
          · split
            · exact ⟨Nat.le_refl i, inside⟩
            · split
              next escaped =>
                obtain ⟨lower, upper⟩ := ih (i + 2) (by omega)
                exact ⟨by omega, upper⟩
              next =>
                obtain ⟨lower, upper⟩ := ih (i + 1) below
                exact ⟨by omega, upper⟩

/-- Content that starts with neither a quote nor an escape of a dollar sign
takes its first byte. -/
theorem lt_contentEnd {b : UInt8} (here : src[start]? = some b) (noQuote : b ≠ byte '"')
    (noDollar : ¬ (b = byte '$' ∧ (src[start + 1]?).any followsDollar = true)) :
    start < contentEnd src (src.size - start) start := by
  have inside := lt_size_of_getElem? here
  obtain ⟨n, count⟩ : ∃ n, src.size - start = n + 1 := ⟨src.size - start - 1, by omega⟩
  rw [count, contentEnd, here]
  simp only []
  rw [if_neg noQuote, if_neg noDollar]
  split
  next escaped =>
    have := (contentEnd_bounds src n (start + 2) (by omega)).1
    omega
  next =>
    have := (contentEnd_bounds src n (start + 1) (by omega)).1
    omega

theorem content_bounded {b : UInt8} (here : src[start]? = some b) (noQuote : b ≠ byte '"')
    (noDollar : ¬ (b = byte '$' ∧ (src[start + 1]?).any followsDollar = true)) :
    (content src start).Bounded src start := by
  have inside := lt_size_of_getElem? here
  have above := lt_contentEnd here noQuote noDollar
  have below := (contentEnd_bounds src (src.size - start) start (Nat.le_of_lt inside)).2
  refine ⟨above, below, ?_, seen_le src _, by simp [content]⟩
  unfold content
  simp only []
  split
  next dollar =>
    have := lt_size_of_getElem? dollar
    have := le_seen src (i := contentEnd src (src.size - start) start + 1) this
    omega
  next => exact Nat.le_of_succ_le (le_seen src below)

theorem ofString_bounded (inside : start < src.size) : (ofString src start).Bounded src start := by
  have here := Array.getElem?_eq_getElem inside
  unfold ofString
  rw [here]
  simp only []
  split
  · exact ⟨Nat.lt_succ_self _, inside, Nat.le_refl _, by simp only []; omega, by simp⟩
  next noQuote =>
    split
    next escape =>
      have := lt_size_of_getElem? escape.2
      exact ⟨by simp only []; omega, by simp only []; omega, Nat.le_refl _, by simp only []; omega,
        by simp⟩
    next noEscape =>
      split
      next opening =>
        have := lt_size_of_getElem? opening.2
        exact ⟨by simp only []; omega, by simp only []; omega, Nat.le_refl _,
          by simp only []; omega, by simp⟩
      next noOpening =>
        apply content_bounded here noQuote
        rintro ⟨dollar, follows⟩
        cases found : src[start + 1]? with
        | none =>
            rw [found] at follows
            contradiction
        | some b =>
            rw [found] at follows noEscape noOpening
            have : b = byte '$' ∨ b = byte '\x7b' := by
              simpa [followsDollar] using follows
            rcases this with rfl | rfl
            · exact noEscape ⟨dollar, rfl⟩
            · exact noOpening ⟨dollar, rfl⟩

def read (src : Text) (frames : List Frame) (start : Nat) : Lexeme :=
  match frames with
  | .string :: _ => ofString src start
  | _ => ofCode src start

theorem read_size (src : Text) (frames : List Frame) : read src frames src.size = ending src := by
  unfold read
  split <;> simp [ofString, ofCode]

theorem read_bounded (frames : List Frame) (inside : start < src.size) :
    (read src frames start).Bounded src start := by
  unfold read
  split
  · exact ofString_bounded inside
  · exact ofCode_bounded inside

theorem read_within (frames : List Frame) (inside : start ≤ src.size) :
    start ≤ (read src frames start).stop ∧ (read src frames start).stop ≤ src.size ∧
      (read src frames start).stop ≤ (read src frames start).reach ∧
      (read src frames start).reach ≤ src.size + 1 := by
  rcases Nat.eq_or_lt_of_le inside with rfl | before
  · rw [read_size]
    simp [ending]
  · have bounded := read_bounded frames before
    exact ⟨Nat.le_of_lt bounded.stop_gt, bounded.stop_le, bounded.stop_le_reach, bounded.reach_le⟩

theorem lt_read_reach (frames : List Frame) (inside : start ≤ src.size) :
    start < (read src frames start).reach := by
  rcases Nat.eq_or_lt_of_le inside with rfl | before
  · rw [read_size]
    exact Nat.lt_succ_self _
  · have bounded := read_bounded frames before
    exact Nat.lt_of_lt_of_le bounded.stop_gt bounded.stop_le_reach

theorem read_kind_eq_end_iff (frames : List Frame) (inside : start ≤ src.size) :
    (read src frames start).kind = .endOfInput ↔ start = src.size := by
  constructor
  · intro ended
    by_contra other
    exact (read_bounded frames (Nat.lt_of_le_of_ne inside other)).kind_ne ended
  · rintro rfl
    rw [read_size]
    rfl

end Lexeme

end MqTree
