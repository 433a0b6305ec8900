import Mathlib.Data.List.Basic
import MqTree.Text.Basic

namespace MqTree

namespace Text

theorem le_skipUpTo (t : Text) (p : UInt8 → Bool) (n i : Nat) : i ≤ t.skipUpTo p n i := by
  induction n generalizing i with
  | zero => exact Nat.le_refl i
  | succ n ih =>
      simp only [skipUpTo]
      split
      · exact Nat.le_trans (Nat.le_succ i) (ih (i + 1))
      · exact Nat.le_refl i

theorem skipUpTo_le (t : Text) (p : UInt8 → Bool) (n i : Nat) : t.skipUpTo p n i ≤ i + n := by
  induction n generalizing i with
  | zero => exact Nat.le_refl i
  | succ n ih =>
      simp only [skipUpTo]
      split
      · have := ih (i + 1)
        omega
      · omega

private theorem skipUpTo_passes (t : Text) (p : UInt8 → Bool) {n i k : Nat}
    (ahead : i ≤ k) (below : k < t.skipUpTo p n i) : (t[k]?).any p = true := by
  induction n generalizing i with
  | zero =>
      simp only [skipUpTo] at below
      omega
  | succ n ih =>
      simp only [skipUpTo] at below
      split at below
      next holds =>
        rcases Nat.eq_or_lt_of_le ahead with rfl | later
        · exact holds
        · exact ih later below
      next => omega

private theorem skipUpTo_stops (t : Text) (p : UInt8 → Bool) {n i : Nat}
    (short : t.skipUpTo p n i < i + n) : (t[t.skipUpTo p n i]?).any p = false := by
  induction n generalizing i with
  | zero =>
      simp only [skipUpTo] at short
      omega
  | succ n ih =>
      simp only [skipUpTo] at short ⊢
      split at short
      next holds =>
        rw [if_pos holds]
        exact ih (by omega)
      next fails =>
        rw [if_neg fails]
        exact Bool.eq_false_iff.mpr fails

theorem le_skipWhile (t : Text) (p : UInt8 → Bool) (i : Nat) : i ≤ t.skipWhile p i :=
  le_skipUpTo t p _ i

theorem skipWhile_le (t : Text) (p : UInt8 → Bool) {i : Nat} (inside : i ≤ t.size) :
    t.skipWhile p i ≤ t.size := by
  have := skipUpTo_le t p (t.size - i) i
  unfold skipWhile
  omega

theorem skipWhile_passes (t : Text) (p : UInt8 → Bool) {i k : Nat}
    (ahead : i ≤ k) (below : k < t.skipWhile p i) : (t[k]?).any p = true :=
  skipUpTo_passes t p ahead below

theorem skipWhile_stops (t : Text) (p : UInt8 → Bool) (i : Nat) :
    (t[t.skipWhile p i]?).any p = false := by
  by_cases short : t.skipWhile p i < t.size
  · apply skipUpTo_stops
    unfold skipWhile at short
    omega
  · rw [Array.getElem?_eq_none (Nat.le_of_not_lt short)]
    rfl

theorem skipWhile_eq_of {t : Text} {p : UInt8 → Bool} {i j : Nat} (ahead : i ≤ j)
    (passes : ∀ k, i ≤ k → k < j → (t[k]?).any p = true)
    (stops : (t[j]?).any p = false) : t.skipWhile p i = j := by
  rcases Nat.lt_trichotomy (t.skipWhile p i) j with early | same | late
  · have holds := passes _ (le_skipWhile t p i) early
    rw [skipWhile_stops] at holds
    contradiction
  · exact same
  · rw [skipWhile_passes t p ahead late] at stops
    contradiction

theorem lt_skipWhile {t : Text} {p : UInt8 → Bool} {i : Nat} (passes : (t[i]?).any p = true) :
    i < t.skipWhile p i := by
  rcases Nat.eq_or_lt_of_le (le_skipWhile t p i) with same | later
  · have stops := skipWhile_stops t p i
    rw [← same, passes] at stops
    contradiction
  · exact later

end Text

namespace Place

@[simp] theorem advance_zero (t : Text) (p : Place) : advance t 0 p = p := rfl

@[simp] theorem index_next (t : Text) (p : Place) : (p.next t).index = p.index + 1 := by
  unfold next
  split <;> rfl

@[simp] theorem index_advance (t : Text) (n : Nat) (p : Place) :
    (advance t n p).index = p.index + n := by
  induction n generalizing p with
  | zero => rfl
  | succ n ih =>
      rw [advance, ih, index_next]
      omega

theorem advance_add (t : Text) (m n : Nat) (p : Place) :
    advance t (m + n) p = advance t n (advance t m p) := by
  induction m generalizing p with
  | zero => rw [Nat.zero_add, advance_zero]
  | succ m ih => rw [Nat.add_right_comm, advance, ih, advance]

@[simp] theorem index_moveTo (t : Text) (p : Place) (index : Nat) :
    (p.moveTo t index).index = index := by
  unfold moveTo
  split
  · rw [index_advance]
    omega
  · simp [origin]

theorem moveTo_self (t : Text) (p : Place) : p.moveTo t p.index = p := by
  simp [moveTo]

def newlines (t : Text) : Nat → Nat → Nat
  | 0, _ => 0
  | n + 1, i => (if t[i]? = some Text.newline then 1 else 0) + newlines t n (i + 1)

theorem line_advance (t : Text) (n : Nat) (p : Place) :
    (advance t n p).line = p.line + newlines t n p.index := by
  induction n generalizing p with
  | zero => rfl
  | succ n ih =>
      rw [advance, ih, index_next, newlines, next]
      split <;> simp only [] <;> omega

theorem newlines_congr {t u : Text} {n i j : Nat}
    (same : ∀ k, k < n → t[i + k]? = u[j + k]?) : newlines t n i = newlines u n j := by
  induction n generalizing i j with
  | zero => rfl
  | succ n ih =>
      have head := same 0 (by omega)
      simp only [Nat.add_zero] at head
      have tail : newlines t n (i + 1) = newlines u n (j + 1) := by
        apply ih
        intro k below
        have := same (k + 1) (by omega)
        rwa [show i + (k + 1) = i + 1 + k by omega, show j + (k + 1) = j + 1 + k by omega] at this
      rw [newlines, newlines, head, tail]

theorem line_moveTo {t : Text} {p : Place} {index : Nat} (ahead : p.index ≤ index) :
    (p.moveTo t index).line = p.line + newlines t (index - p.index) p.index := by
  rw [moveTo, if_pos ahead, line_advance]

/-- A place whose line is counted from the start of the text. -/
def Counted (t : Text) (p : Place) : Prop := p = advance t p.index origin

theorem counted_origin (t : Text) : origin.Counted t := rfl

theorem Counted.eq_moveTo {t : Text} {p : Place} (counted : p.Counted t) :
    p = origin.moveTo t p.index := by
  rw [moveTo, if_pos (show origin.index ≤ p.index from Nat.zero_le _)]
  exact counted

theorem Counted.moveTo {t : Text} {p : Place} (counted : p.Counted t) (index : Nat) :
    (p.moveTo t index).Counted t := by
  unfold Counted
  rw [index_moveTo]
  unfold Place.moveTo
  split
  next ahead =>
    conv_lhs => rw [counted]
    rw [index_advance, ← advance_add]
    simp only [origin, Nat.zero_add]
    rw [Nat.add_sub_of_le ahead]
  next => rfl

theorem Counted.moveTo_eq {t : Text} {p : Place} (counted : p.Counted t) (index : Nat) :
    p.moveTo t index = origin.moveTo t index := by
  have there := (counted.moveTo index).eq_moveTo
  rwa [index_moveTo] at there

end Place

namespace LineIndex

private theorem find_of_later {offset line start : Nat} {starts : List Nat}
    (later : ∀ s ∈ starts, offset < s) :
    find offset line start starts = ⟨line, offset - start + 1⟩ := by
  cases starts with
  | nil => rfl
  | cons next rest =>
      have := later next (by simp)
      rw [find, if_neg (by omega)]

private theorem find_eq_point (t : Text) (offset : Nat) {n : Nat} {p : Place}
    (ahead : p.index ≤ offset) (inside : offset ≤ p.index + n) :
    find offset p.line p.lineStart ((List.range' p.index n).filterMap fun i =>
        if t[i]? = some Text.newline then some (i + 1) else none) =
      (p.moveTo t offset).point := by
  induction n generalizing p with
  | zero =>
      obtain rfl : offset = p.index := by omega
      rw [Place.moveTo_self]
      rfl
  | succ n ih =>
      rcases Nat.eq_or_lt_of_le ahead with rfl | later
      · rw [Place.moveTo_self]
        apply find_of_later
        intro s member
        obtain ⟨i, inRange, found⟩ := List.mem_filterMap.mp member
        have := (List.mem_range'_1.mp inRange).1
        split at found
        · have := Option.some.inj found
          omega
        · contradiction
      · have step : p.moveTo t offset = (p.next t).moveTo t offset := by
          rw [Place.moveTo, if_pos ahead, Place.moveTo, Place.index_next,
            if_pos (Nat.succ_le_of_lt later), show offset - p.index = (offset - (p.index + 1)) + 1 by omega, Place.advance]
        have rest := ih (p := p.next t) (by rw [Place.index_next]; omega)
          (by rw [Place.index_next]; omega)
        rw [step, ← rest, List.range'_succ, List.filterMap_cons, Place.index_next]
        by_cases ends : t[p.index]? = some Text.newline
        · simp only [if_pos ends, Place.next]
          rw [find, if_pos (by omega)]
        · simp only [if_neg ends, Place.next]

/-- Looking a position up among the starts of lines gives what counting lines
from the start of the text gives. -/
theorem point_eq_of_counted {t : Text} {p : Place} (counted : p.Counted t)
    (inside : p.index ≤ t.size) : (ofText t).point p.index = p.point := by
  have found := find_eq_point t p.index (n := t.size) (p := Place.origin)
    (Nat.zero_le _) (by simpa [Place.origin] using inside)
  rw [point, ofText, List.range_eq_range']
  have same : Place.origin.moveTo t p.index = p := by
    rw [Place.moveTo, if_pos (show Place.origin.index ≤ p.index from Nat.zero_le _)]
    exact counted.symm
  rw [same] at found
  exact found

end LineIndex

end MqTree
