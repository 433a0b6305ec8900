import MqTree.Proofs.Lexer.Next

namespace MqTree

open Text

/-! A lexeme depends on nothing but the bytes that were looked at, unless it is
a character cut short; and it stays what it is if the text ends right behind
it. -/

namespace Text

/-- From `a` in `t` and from `b` in `u` on, the next `n` looks find the same. -/
def Agree (t : Text) (a : Nat) (u : Text) (b n : Nat) : Prop :=
  ∀ k, k < n → t[a + k]? = u[b + k]?

variable {t u : Text} {a b n : Nat}

theorem Agree.refl (t : Text) (a n : Nat) : t.Agree a t a n := fun _ _ => rfl

theorem Agree.symm (agree : t.Agree a u b n) : u.Agree b t a n :=
  fun k below => (agree k below).symm

theorem Agree.trans {v : Text} {c : Nat} (agree : t.Agree a u b n) (more : u.Agree b v c n) :
    t.Agree a v c n :=
  fun k below => (agree k below).trans (more k below)

theorem Agree.mono {m : Nat} (agree : t.Agree a u b n) (le : m ≤ n) : t.Agree a u b m :=
  fun k below => agree k (by omega)

theorem Agree.drop {m : Nat} (agree : t.Agree a u b n) : t.Agree (a + m) u (b + m) (n - m) := by
  intro k below
  have := agree (m + k) (by omega)
  rwa [← Nat.add_assoc, ← Nat.add_assoc] at this

theorem Agree.get (agree : t.Agree a u b n) {p : Nat} (above : a ≤ p) (below : p < a + n) :
    u[b + (p - a)]? = t[p]? := by
  have := agree (p - a) (by omega)
  rw [← this]
  congr 1
  omega

theorem Agree.get_or_none (agree : t.Agree a u b n) {p : Nat} (above : a ≤ p)
    (shown : p < a + n ∨ u.size ≤ b + n) :
    u[b + (p - a)]? = t[p]? ∨ u[b + (p - a)]? = none := by
  by_cases below : p < a + n
  · exact Or.inl (agree.get above below)
  · right
    rw [Array.getElem?_eq_none_iff]
    rcases shown with near | ended <;> omega

theorem Agree.any_eq_false (agree : t.Agree a u b n) {f : UInt8 → Bool} {p : Nat} (above : a ≤ p)
    (shown : p < a + n ∨ u.size ≤ b + n) (fails : (t[p]?).any f = false) :
    (u[b + (p - a)]?).any f = false := by
  rcases agree.get_or_none above shown with same | ended
  · rw [same, fails]
  · rw [ended]
    rfl

theorem Agree.any_of_any (agree : t.Agree a u b n) {f : UInt8 → Bool} {p : Nat} (above : a ≤ p)
    (shown : p < a + n ∨ u.size ≤ b + n) (holds : (u[b + (p - a)]?).any f = true) :
    (t[p]?).any f = true := by
  by_contra other
  have fails := agree.any_eq_false above shown (Bool.eq_false_iff.mpr other)
  rw [holds] at fails
  contradiction

theorem Agree.get_of_some (agree : t.Agree a u b n) {c : UInt8} {p : Nat} (above : a ≤ p)
    (shown : p < a + n ∨ u.size ≤ b + n) (found : u[b + (p - a)]? = some c) : t[p]? = some c := by
  rcases agree.get_or_none above shown with same | ended
  · exact same.symm.trans found
  · rw [ended] at found
    contradiction

theorem Agree.lt_size (agree : t.Agree a u b n) {p : Nat} (above : a ≤ p)
    (shown : p < a + n ∨ u.size ≤ b + n) (inside : b + (p - a) < u.size) : p < t.size :=
  lt_size_of_getElem? (agree.get_of_some above shown (Array.getElem?_eq_getElem inside))

theorem Agree.skipWhile (agree : t.Agree a u b n) {f : UInt8 → Bool} {i : Nat} (above : a ≤ i)
    (inside : t.skipWhile f i ≤ a + n)
    (shown : t.skipWhile f i < a + n ∨ u.size ≤ b + n) :
    u.skipWhile f (b + (i - a)) = b + (t.skipWhile f i - a) := by
  have later := le_skipWhile t f i
  apply skipWhile_eq_of
  · omega
  · intro k reached below
    have passes := skipWhile_passes t f (i := i) (k := a + (k - b)) (by omega) (by omega)
    rw [← agree.get (by omega) (by omega)] at passes
    rwa [show b + (a + (k - b) - a) = k by omega] at passes
  · exact agree.any_eq_false (by omega) shown (skipWhile_stops t f i)

theorem getElem?_extract_eq (t : Text) (i j k : Nat) :
    (t.extract i j)[k]? = if i + k < j then t[i + k]? else none := by
  rw [Array.getElem?_extract]
  by_cases inside : i + k < j
  · rw [if_pos inside]
    split
    · rfl
    · rw [eq_comm, Array.getElem?_eq_none_iff]
      omega
  · rw [if_neg inside, if_neg (by omega)]

theorem agree_extract (t : Text) (i j : Nat) : t.Agree i (t.extract i j) 0 (j - i) := by
  intro k below
  rw [Nat.zero_add, getElem?_extract_eq, if_pos (by omega)]

theorem Agree.extract (agree : t.Agree a u b n) {i j : Nat} (above : a ≤ i)
    (inside : j ≤ a + n) : u.extract (b + (i - a)) (b + (j - a)) = t.extract i j := by
  apply Array.ext_getElem?
  intro k
  rw [getElem?_extract_eq, getElem?_extract_eq]
  by_cases below : i + k < j
  · rw [if_pos (by omega), if_pos below, ← agree.get (p := i + k) (by omega) (by omega)]
    congr 1
    omega
  · rw [if_neg (by omega), if_neg below]

theorem Agree.isSome (agree : t.Agree a u b n) {p : Nat} (above : a ≤ p) (below : p < a + n)
    (inside : p < t.size) : b + (p - a) < u.size := by
  have same := agree.get above below
  rw [Array.getElem?_eq_getElem inside] at same
  exact lt_size_of_getElem? same

end Text

namespace Rune

/-- Whether a character of three or four bytes starts at `i`, has its second
byte, and is not completed. -/
def torn (t : Text) (i : Nat) : Bool :=
  match (t[i]?).bind lead? with
  | some (n, payload, lo, hi) =>
      2 ≤ n && (tail? lo hi t[i + 1]?).isSome && (value? t (i + 1) lo hi payload n).isNone
  | none => false

theorem lt_size_of_torn {t : Text} {i : Nat} (cut : torn t i = true) : i < t.size := by
  by_contra outside
  rw [torn, Array.getElem?_eq_none (Nat.not_lt.mp outside)] at cut
  contradiction

/-- What is cut short from `a` on in `t` is cut short from `b` on in `u`, as far
as it shows in the next `n` bytes. -/
def StaysTorn (t : Text) (a : Nat) (u : Text) (b n : Nat) : Prop :=
  ∀ k, k + 2 ≤ n → torn t (a + k) = true → torn u (b + k) = true

theorem StaysTorn.refl (t : Text) (a n : Nat) : StaysTorn t a t a n := fun _ _ => id

theorem StaysTorn.trans {t u v : Text} {a b c n : Nat} (stays : StaysTorn t a u b n)
    (more : StaysTorn u b v c n) : StaysTorn t a v c n :=
  fun k below cut => more k below (stays k below cut)

theorem StaysTorn.mono {t u : Text} {a b n m : Nat} (stays : StaysTorn t a u b n) (le : m ≤ n) :
    StaysTorn t a u b m :=
  fun k below => stays k (by omega)

theorem StaysTorn.drop {t u : Text} {a b n m : Nat} (stays : StaysTorn t a u b n) :
    StaysTorn t (a + m) u (b + m) (n - m) := by
  intro k below
  have later := stays (m + k) (by omega)
  rwa [← Nat.add_assoc, ← Nat.add_assoc] at later

theorem StaysTorn.get {t u : Text} {a b n i : Nat} (stays : StaysTorn t a u b n) (above : a ≤ i)
    (below : i + 2 ≤ a + n) (cut : torn t i = true) : torn u (b + (i - a)) = true := by
  apply stays (i - a) (by omega)
  rwa [Nat.add_sub_of_le above]

theorem value?_congr {t u : Text} {i j n payload : Nat} {lo hi : UInt8}
    (same : ∀ k, k < n → t[i + k]? = u[j + k]?) :
    value? t i lo hi payload n = value? u j lo hi payload n := by
  induction n generalizing i j payload lo hi with
  | zero => rfl
  | succ n ih =>
      have head := same 0 (by omega)
      simp only [Nat.add_zero] at head
      rw [value?, value?, head]
      congr 1
      funext low
      apply ih
      intro k below
      have := same (k + 1) (by omega)
      rwa [show i + (k + 1) = i + 1 + k by omega, show j + (k + 1) = j + 1 + k by omega] at this

def widthAt (t : Text) (i : Nat) : Nat := ((at? t i).map width).getD 1

theorem widthAt_of_lead {t : Text} {i n payload : Nat} {c lo hi : UInt8} (here : t[i]? = some c)
    (leading : lead? c = some (n, payload, lo, hi)) :
    widthAt t i = if (value? t (i + 1) lo hi payload n).isSome then n + 1 else 1 := by
  have high : ¬ c < 0x80 := by
    intro ascii
    have low : c < 0xC2 := UInt8.lt_trans ascii (by decide)
    rw [lead?, if_pos low] at leading
    contradiction
  simp only [widthAt, at?, here, Option.map_some, if_neg high, leading, Option.getD_some]
  cases value? t (i + 1) lo hi payload n <;> rfl

theorem widthAt_of_no_lead {t : Text} {i : Nat} {c : UInt8} (here : t[i]? = some c)
    (leading : lead? c = none) : widthAt t i = 1 := by
  simp only [widthAt, at?, here, Option.map_some, leading, Option.getD_some]
  split <;> rfl

/-- The byte at which a character fails to go on must be shown, unless the text
ends before it. -/
theorem widthAt_agree {t u : Text} {a b n i : Nat} (agree : t.Agree a u b n) (above : a ≤ i)
    (inside : i < t.size) (taken : i + widthAt t i ≤ a + n)
    (shown : i + 2 ≤ a + n ∧ (torn t i = true → torn u (b + (i - a)) = true) ∨ u.size ≤ b + n) :
    widthAt u (b + (i - a)) = widthAt t i := by
  have positive : 0 < widthAt t i := by
    cases found : at? t i with
    | none => simp [widthAt, found]
    | some r => simp [widthAt, found, (at?_width found).1]
  have here := Array.getElem?_eq_getElem inside
  have there : u[b + (i - a)]? = some t[i] := (agree.get above (by omega)).trans here
  cases leading : lead? t[i] with
  | none => rw [widthAt_of_no_lead here leading, widthAt_of_no_lead there leading]
  | some parts =>
      obtain ⟨m, payload, lo, hi⟩ := parts
      rw [widthAt_of_lead here leading, widthAt_of_lead there leading]
      rw [widthAt_of_lead here leading] at taken
      -- Both directions need the continuation bytes to be the same in both texts.
      have transfer (all : i + (m + 1) ≤ a + n) :
          value? t (i + 1) lo hi payload m = value? u (b + (i - a) + 1) lo hi payload m := by
        apply value?_congr
        intro k below
        rw [← agree.get (p := i + 1 + k) (by omega) (by omega)]
        congr 1
        omega
      cases whole : value? t (i + 1) lo hi payload m with
      | some v =>
          rw [whole] at taken
          rw [← transfer taken, whole]
      | none =>
          cases other : value? u (b + (i - a) + 1) lo hi payload m with
          | none => rfl
          | some v =>
              exfalso
              rcases shown with ⟨near, stays⟩ | ended
              · rcases Nat.lt_or_ge m 2 with short | long
                · rw [transfer (by omega), other] at whole
                  contradiction
                · obtain ⟨m, rfl⟩ : ∃ k, m = k + 1 := ⟨m - 1, by omega⟩
                  have complete := other
                  rw [value?] at other
                  obtain ⟨low, tail, _⟩ := Option.bind_eq_some_iff.mp other
                  have next := agree.get (p := i + 1) (by omega) (by omega)
                  rw [show b + (i + 1 - a) = b + (i - a) + 1 by omega] at next
                  rw [next] at tail
                  have cut : torn t i = true := by simp [torn, here, leading, tail, whole, long]
                  have done : torn u (b + (i - a)) = false := by
                    simp [torn, there, leading, complete]
                  rw [stays cut] at done
                  contradiction
              · rcases value?_bound other with bound | rfl
                · rw [transfer (by omega), other] at whole
                  contradiction
                · simp [value?] at whole

end Rune

namespace Lexeme

structure Same (a b : Nat) (x y : Lexeme) : Prop where
  kind : y.kind = x.kind
  lit : y.lit = x.lit
  stop : y.stop = b + (x.stop - a)

/-- What an excerpt must show of a lexeme: all that was looked at, or all that
it takes and nothing behind that. Content must not end in half a dollar
escape. -/
def Shown (t u : Text) (a b n : Nat) (x : Lexeme) : Prop :=
  x.reach ≤ a + n ∨
    (x.stop ≤ a + n ∧ u.size ≤ b + n ∧
      (x.kind = .stringContent → x.stop < a + n → t[x.stop]? = some (byte '$') →
        x.stop + 2 ≤ a + n))

variable {t u : Text} {a b n start : Nat}

theorem seen_eq {i : Nat} (inside : i ≤ t.size) : seen t i = i + 1 := by
  rw [seen, Nat.min_eq_left inside]

private theorem Shown.at_stop {x : Lexeme} (shown : Shown t u a b n x)
    (looked : x.stop < x.reach) : x.stop < a + n ∨ (x.stop ≤ a + n ∧ u.size ≤ b + n) := by
  rcases shown with near | ⟨taken, ended, _⟩
  · left
    omega
  · exact Or.inr ⟨taken, ended⟩

theorem comment_agree (agree : t.Agree a u b n) (above : a ≤ start) (inside : start < t.size)
    (shown : Shown t u a b n (comment t start)) :
    Same a b (comment t start) (comment u (b + (start - a))) := by
  have below := skipWhile_le t (· != newline) (i := start + 1) inside
  have rests := shown.at_stop (by simp [comment, seen_eq below])
  have skip := agree.skipWhile (f := (· != newline)) (i := start + 1) (by omega)
    (by simp only [comment] at rests; omega) (by simp only [comment] at rests; omega)
  rw [show b + (start + 1 - a) = b + (start - a) + 1 by omega] at skip
  exact ⟨rfl, rfl, skip⟩

theorem number_stop (src : Text) (start : Nat) :
    (number src start).stop =
      if src[src.skipWhile isDigit (start + 1)]? = some (byte '.') ∧
          (src[src.skipWhile isDigit (start + 1) + 1]?).any isDigit = true then
        src.skipWhile isDigit (src.skipWhile isDigit (start + 1) + 2)
      else src.skipWhile isDigit (start + 1) := by
  unfold number
  simp only []
  by_cases point : src[src.skipWhile isDigit (start + 1)]? = some (byte '.')
  · by_cases digit : (src[src.skipWhile isDigit (start + 1) + 1]?).any isDigit = true
    · simp only [point, digit, and_self, if_true]
    · simp only [point, digit, and_false, if_true, if_false, Bool.false_eq_true]
  · simp only [point, false_and, if_false]

private theorem number_kind (src : Text) (start : Nat) :
    (number src start).kind = .number ∧ (number src start).lit = "" := by
  unfold number
  simp only []
  split
  · split <;> exact ⟨rfl, rfl⟩
  · exact ⟨rfl, rfl⟩

theorem number_reach (src : Text) (inside : start < src.size) :
    (number src start).stop < (number src start).reach ∧
      (src[src.skipWhile isDigit (start + 1)]? = some (byte '.') →
        src.skipWhile isDigit (start + 1) + 2 ≤ (number src start).reach) := by
  have below := skipWhile_le src isDigit (i := start + 1) inside
  have bounded := (number_bounded inside).stop_le
  unfold number at bounded ⊢
  simp only [] at bounded ⊢
  split
  next point =>
    have := lt_size_of_getElem? point
    split
    next digit =>
      simp only [point, digit, if_true] at bounded
      have := le_skipWhile src isDigit (src.skipWhile isDigit (start + 1) + 2)
      simp only [seen_eq bounded]
      omega
    next =>
      have := seen_eq (t := src) (i := src.skipWhile isDigit (start + 1) + 1) (by omega)
      simp only [this]
      omega
  next other => simp only [seen_eq below, other, false_implies, and_true, Nat.lt_succ_self]

theorem number_agree (agree : t.Agree a u b n) (above : a ≤ start) (inside : start < t.size)
    (shown : Shown t u a b n (number t start)) :
    Same a b (number t start) (number u (b + (start - a))) := by
  obtain ⟨looked, pointLooked⟩ := number_reach t inside
  have rests := shown.at_stop looked
  refine ⟨(number_kind u _).1.trans (number_kind t _).1.symm,
    (number_kind u _).2.trans (number_kind t _).2.symm, ?_⟩
  have later := le_skipWhile t isDigit (start + 1)
  have past := le_skipWhile t isDigit (t.skipWhile isDigit (start + 1) + 2)
  rw [number_stop, number_stop]
  rw [number_stop] at rests
  by_cases fraction : t[t.skipWhile isDigit (start + 1)]? = some (byte '.') ∧
      (t[t.skipWhile isDigit (start + 1) + 1]?).any isDigit = true
  · rw [if_pos fraction] at rests ⊢
    have whole := agree.skipWhile (f := isDigit) (i := start + 1) (by omega) (by omega)
      (Or.inl (by omega))
    rw [show b + (start + 1 - a) = b + (start - a) + 1 by omega] at whole
    have point := agree.get (p := t.skipWhile isDigit (start + 1)) (by omega) (by omega)
    have digit := agree.get (p := t.skipWhile isDigit (start + 1) + 1) (by omega) (by omega)
    have rest := agree.skipWhile (f := isDigit) (i := t.skipWhile isDigit (start + 1) + 2)
      (by omega) (by omega) (by omega)
    rw [show b + (t.skipWhile isDigit (start + 1) + 1 - a) =
      b + (t.skipWhile isDigit (start + 1) - a) + 1 by omega] at digit
    rw [show b + (t.skipWhile isDigit (start + 1) + 2 - a) =
      b + (t.skipWhile isDigit (start + 1) - a) + 2 by omega] at rest
    rw [whole, point, digit, if_pos fraction, rest]
  · rw [if_neg fraction] at rests ⊢
    have whole := agree.skipWhile (f := isDigit) (i := start + 1) (by omega) (by omega) (by omega)
    rw [show b + (start + 1 - a) = b + (start - a) + 1 by omega] at whole
    rw [whole, if_neg]
    rintro ⟨point, digit⟩
    apply fraction
    -- A point in the second text is one in the first, which then looked one further.
    have atPoint := agree.get_of_some (by omega) (by omega) point
    have behind : t.skipWhile isDigit (start + 1) + 1 < a + n ∨ u.size ≤ b + n := by
      rcases shown with near | ⟨_, ended, _⟩
      · have := pointLooked atPoint
        omega
      · exact Or.inr ended
    refine ⟨atPoint, agree.any_of_any (by omega) behind ?_⟩
    rwa [show b + (t.skipWhile isDigit (start + 1) + 1 - a) =
      b + (t.skipWhile isDigit (start + 1) - a) + 1 by omega]

theorem word_agree (agree : t.Agree a u b n) (above : a ≤ start) (inside : start < t.size)
    (shown : Shown t u a b n (word t start)) :
    Same a b (word t start) (word u (b + (start - a))) := by
  have later := le_skipWhile t isWordByte (start + 1)
  have below := skipWhile_le t isWordByte (i := start + 1) inside
  -- The byte behind the word decides whether an interpolated string is opened.
  have rests : t.skipWhile isWordByte (start + 1) ≤ a + n ∧
      (t.skipWhile isWordByte (start + 1) < a + n ∨ u.size ≤ b + n) := by
    unfold Shown word at shown
    simp only [] at shown
    split at shown
    · simp only [] at shown
      omega
    · split at shown <;> simp only [seen_eq below] at shown <;> omega
  have skip := agree.skipWhile (f := isWordByte) (i := start + 1) (by omega) rests.1 rests.2
  have text := agree.extract (i := start) (j := t.skipWhile isWordByte (start + 1)) above rests.1
  rw [show b + (start + 1 - a) = b + (start - a) + 1 by omega] at skip
  unfold word
  simp only []
  rw [skip, text]
  by_cases opens : t.extract start (t.skipWhile isWordByte (start + 1)) = #[byte 's'] ∧
      t[t.skipWhile isWordByte (start + 1)]? = some (byte '"')
  · have near : t.skipWhile isWordByte (start + 1) < a + n := by
      unfold Shown word at shown
      simp only [if_pos opens] at shown
      omega
    rw [if_pos opens, agree.get (by omega) near, if_pos opens]
    exact ⟨rfl, rfl, by simp only []; omega⟩
  · rw [if_neg opens, if_neg]
    · split <;> exact ⟨rfl, rfl, rfl⟩
    · rintro ⟨letter, quote⟩
      exact opens ⟨letter, agree.get_of_some (by omega) rests.2 quote⟩

theorem closingQuote?_agree (agree : t.Agree a u b n) {m k i quote : Nat} (above : a ≤ i)
    (found : closingQuote? t m i = some quote) (below : quote < a + n) (enough : quote - i < k) :
    closingQuote? u k (b + (i - a)) = some (b + (quote - a)) := by
  induction m generalizing i k with
  | zero => simp [closingQuote?] at found
  | succ m ih =>
      have order := (closingQuote?_spec found).1
      obtain ⟨k, rfl⟩ : ∃ j, k = j + 1 := ⟨k - 1, by omega⟩
      have same := agree.get (p := i) above (by omega)
      rw [closingQuote?] at found ⊢
      rw [same]
      cases here : t[i]? with
      | none => simp [here] at found
      | some c =>
          simp only [here] at found ⊢
          by_cases isQuote : c = byte '"'
          · rw [if_pos isQuote] at found ⊢
            rw [Option.some.inj found]
          · rw [if_neg isQuote] at found ⊢
            have further := (closingQuote?_spec found).1
            by_cases escape : c = byte '\\'
            · rw [if_pos escape] at found further ⊢
              have := ih (by omega) found (k := k) (by omega)
              rwa [show b + (i + 2 - a) = b + (i - a) + 2 by omega] at this
            · rw [if_neg escape] at found further ⊢
              have := ih (by omega) found (k := k) (by omega)
              rwa [show b + (i + 1 - a) = b + (i - a) + 1 by omega] at this

theorem plainString_agree (agree : t.Agree a u b n) (above : a ≤ start)
    (quote : t[start]? = some (byte '"')) (shown : Shown t u a b n (plainString t start)) :
    Same a b (plainString t start) (plainString u (b + (start - a))) := by
  have inside := lt_size_of_getElem? quote
  unfold plainString at shown ⊢
  cases closing : closingQuote? t (t.size - start) (start + 1) with
  | some stop =>
      rw [closing] at shown
      obtain ⟨order, atQuote⟩ := closingQuote?_spec closing
      have below : stop < a + n := by
        rcases shown with near | ⟨taken, _⟩
        · exact near
        · exact taken
      have room := agree.isSome (by omega) below (lt_size_of_getElem? atQuote)
      have found := closingQuote?_agree agree (by omega) closing below
        (k := u.size - (b + (start - a))) (by omega)
      rw [show b + (start + 1 - a) = b + (start - a) + 1 by omega] at found
      rw [found]
      exact ⟨rfl, rfl, by simp only []; omega⟩
  | none =>
      rw [closing] at shown
      have stops := skipWhile_le t (· != newline) (Nat.le_of_lt inside)
      have ended : u.size ≤ b + n := by
        rcases shown with near | ⟨_, ended, _⟩
        · have past := agree.get (p := t.size) (by omega) near
          rw [Array.getElem?_eq_none (Nat.le_refl _), Array.getElem?_eq_none_iff] at past
          simp only [] at near
          omega
        · exact ended
      -- A closing quote in the second text would be one in the first.
      have none : closingQuote? u (u.size - (b + (start - a))) (b + (start - a) + 1) = none := by
        cases other : closingQuote? u (u.size - (b + (start - a))) (b + (start - a) + 1) with
        | none => rfl
        | some stop =>
            obtain ⟨order, atQuote⟩ := closingQuote?_spec other
            have bound := lt_size_of_getElem? atQuote
            have same := agree.get (p := a + (stop - b)) (by omega) (by omega)
            rw [show b + (a + (stop - b) - a) = stop by omega, atQuote] at same
            have room := lt_size_of_getElem? same.symm
            have found := closingQuote?_agree agree.symm (by omega) other (by omega)
              (k := t.size - start) (by omega)
            rw [show a + (b + (start - a) + 1 - b) = start + 1 by omega, closing] at found
            contradiction
      have skip := agree.skipWhile (f := (· != newline)) (i := start) above
        (by rcases shown with near | ⟨taken, _⟩ <;> simp only [] at * <;> omega) (Or.inr ended)
      rw [none]
      exact ⟨rfl, rfl, skip⟩

theorem mark_agree (agree : t.Agree a u b n) (above : a ≤ start) (inside : start < t.size)
    {first : UInt8} (shown : Shown t u a b n (mark t start first))
    (whole : (mark t start first).kind = .error → start + 2 ≤ a + n →
      u.size ≤ b + n ∨ (Rune.torn t start = true → Rune.torn u (b + (start - a)) = true)) :
    Same a b (mark t start first) (mark u (b + (start - a)) first) := by
  have looked := seen_eq (t := t) (i := start + 1) (by omega)
  have bounded := mark_bounded inside first
  unfold mark at shown bounded whole ⊢
  cases two : (t[start + 1]?).bind (longOperator? first) with
  | some op =>
      simp only [two] at shown
      have same := agree.get (p := start + 1) (by omega)
        (by rcases shown with near | ⟨taken, _⟩ <;> simp only [] at * <;> omega)
      rw [show b + (start + 1 - a) = b + (start - a) + 1 by omega] at same
      rw [same, two]
      exact ⟨rfl, rfl, by simp only []; omega⟩
  | none =>
      simp only [two] at shown bounded whole ⊢
      have rests : start + 1 < a + n ∨ u.size ≤ b + n := by
        rcases shown with near | ⟨_, ended, _⟩
        · left
          split at near <;> simp only [looked] at near <;> omega
        · exact Or.inr ended
      have other : (u[b + (start - a) + 1]?).bind (longOperator? first) = none := by
        have read := agree.get_or_none (p := start + 1) (by omega) rests
        rw [show b + (start + 1 - a) = b + (start - a) + 1 by omega] at read
        rcases read with same | ended
        · rw [same, two]
        · rw [ended]
          rfl
      rw [other]
      simp only []
      cases single : mark? first with
      | some op => exact ⟨rfl, rfl, by simp only []; omega⟩
      | none =>
          simp only [single, looked] at shown whole ⊢
          have taken : start + Rune.widthAt t start ≤ a + n := by
            rcases shown with near | ⟨taken, _⟩
            · unfold Rune.widthAt
              simp only [] at near
              omega
            · exact taken
          have width := Rune.widthAt_agree agree above inside taken (by
            rcases shown with near | ⟨_, ended, _⟩
            · have further : start + 2 ≤ a + n := by
                simp only [] at near
                omega
              rcases whole trivial further with ended | stays
              · exact Or.inr ended
              · exact Or.inl ⟨further, stays⟩
            · exact Or.inr ended)
          unfold Rune.widthAt at width
          refine ⟨rfl, rfl, ?_⟩
          simp only [width]
          omega

theorem ofCode_agree (agree : t.Agree a u b n) (above : a ≤ start) (inside : start < t.size)
    (shown : Shown t u a b n (ofCode t start))
    (whole : (ofCode t start).kind = .error → start + 2 ≤ a + n →
      u.size ≤ b + n ∨ (Rune.torn t start = true → Rune.torn u (b + (start - a)) = true)) :
    Same a b (ofCode t start) (ofCode u (b + (start - a))) := by
  have here := Array.getElem?_eq_getElem inside
  have below : start < a + n := by
    have bounded := ofCode_bounded inside
    have := bounded.stop_gt
    have := bounded.stop_le_reach
    rcases shown with near | ⟨taken, _⟩ <;> omega
  have there : u[b + (start - a)]? = some t[start] := (agree.get above below).trans here
  unfold ofCode at shown whole ⊢
  rw [there]
  rw [here] at shown whole ⊢
  simp only [] at shown whole ⊢
  by_cases hash : t[start] = byte '#'
  · simp only [if_pos hash] at shown ⊢
    exact comment_agree agree above inside shown
  · simp only [if_neg hash] at shown whole ⊢
    by_cases quote : t[start] = byte '"'
    · simp only [if_pos quote] at shown ⊢
      exact plainString_agree agree above (by rw [here, quote]) shown
    · simp only [if_neg quote] at shown whole ⊢
      by_cases digit : isDigit t[start] = true
      · simp only [if_pos digit] at shown ⊢
        exact number_agree agree above inside shown
      · simp only [if_neg digit] at shown whole ⊢
        by_cases letter : isLetter t[start] = true
        · simp only [if_pos letter] at shown ⊢
          exact word_agree agree above inside shown
        · simp only [if_neg letter] at shown whole ⊢
          exact mark_agree agree above inside shown whole

section

variable {k i : Nat} {c : UInt8}

private theorem contentEnd_of_none (ended : u[i]? = none) : contentEnd u k i = i := by
  cases k with
  | zero => rfl
  | succ k => simp only [contentEnd, ended]

private theorem contentEnd_of_quote (here : u[i]? = some c) (quote : c = byte '"') :
    contentEnd u k i = i := by
  cases k with
  | zero => rfl
  | succ k => simp only [contentEnd, here, if_pos quote]

private theorem contentEnd_of_dollar (here : u[i]? = some c)
    (dollar : c = byte '$' ∧ (u[i + 1]?).any followsDollar = true) : contentEnd u k i = i := by
  cases k with
  | zero => rfl
  | succ k => simp only [contentEnd, here, if_pos dollar, ite_self]

private theorem contentEnd_of_escape (here : u[i]? = some c)
    (escaped : c = byte '\\' ∧ i + 1 < u.size) :
    contentEnd u (k + 1) i = contentEnd u k (i + 2) := by
  have noQuote : c ≠ byte '"' := by
    rw [escaped.1]
    decide
  have noDollar : ¬ (c = byte '$' ∧ (u[i + 1]?).any followsDollar = true) := by
    rw [escaped.1]
    exact fun both => absurd both.1 (by decide)
  simp only [contentEnd, here, if_neg noQuote, if_neg noDollar, if_pos escaped]

private theorem contentEnd_of_plain (here : u[i]? = some c) (noQuote : c ≠ byte '"')
    (noDollar : ¬ (c = byte '$' ∧ (u[i + 1]?).any followsDollar = true))
    (noEscape : ¬ (c = byte '\\' ∧ i + 1 < u.size)) :
    contentEnd u (k + 1) i = contentEnd u k (i + 1) := by
  simp only [contentEnd, here, if_neg noQuote, if_neg noDollar, if_neg noEscape]

end

theorem contentEnd_agree (agree : t.Agree a u b n) {m k i : Nat} (above : a ≤ i)
    (fuel : t.size - i ≤ m) (otherFuel : u.size - (b + (i - a)) ≤ k) (inside : i ≤ t.size)
    (taken : contentEnd t m i ≤ a + n)
    (rests : contentEnd t m i < a + n ∨ u.size ≤ b + n)
    (escape : contentEnd t m i < a + n → t[contentEnd t m i]? = some (byte '$') →
      contentEnd t m i + 1 < a + n) :
    contentEnd u k (b + (i - a)) = b + (contentEnd t m i - a) := by
  induction m generalizing i k with
  | zero =>
      have none : t[i]? = none := Array.getElem?_eq_none (by omega)
      rw [contentEnd] at rests ⊢
      rcases agree.get_or_none above rests with same | ended
      · exact contentEnd_of_none (same.trans none)
      · exact contentEnd_of_none ended
  | succ m ih =>
      have next : b + (i + 1 - a) = b + (i - a) + 1 := by omega
      cases here : t[i]? with
      | none =>
          rw [contentEnd_of_none here] at rests ⊢
          rcases agree.get_or_none above rests with same | ended
          · exact contentEnd_of_none (same.trans here)
          · exact contentEnd_of_none ended
      | some c =>
          have bound := lt_size_of_getElem? here
          by_cases quote : c = byte '"'
          · rw [contentEnd_of_quote here quote] at rests ⊢
            rcases agree.get_or_none above rests with same | ended
            · exact contentEnd_of_quote (same.trans here) quote
            · exact contentEnd_of_none ended
          · by_cases dollar : c = byte '$' ∧ (t[i + 1]?).any followsDollar = true
            · rw [contentEnd_of_dollar here dollar] at rests escape ⊢
              by_cases near : i < a + n
              · have further := escape near (by rw [here, dollar.1])
                have look := agree.get (p := i + 1) (by omega) further
                rw [next] at look
                exact contentEnd_of_dollar ((agree.get above near).trans here)
                  ⟨dollar.1, by rw [look, dollar.2]⟩
              · apply contentEnd_of_none
                rw [Array.getElem?_eq_none_iff]
                omega
            · by_cases escaped : c = byte '\\' ∧ i + 1 < t.size
              · rw [contentEnd_of_escape here escaped] at taken rests escape ⊢
                have further := (contentEnd_bounds t m (i + 2) (by omega)).1
                have same := (agree.get above (show i < a + n by omega)).trans here
                have room := agree.isSome (p := i + 1) (by omega) (by omega) escaped.2
                obtain ⟨k, rfl⟩ : ∃ j, k = j + 1 := ⟨k - 1, by omega⟩
                rw [contentEnd_of_escape same ⟨escaped.1, by omega⟩,
                  show b + (i - a) + 2 = b + (i + 2 - a) by omega]
                exact ih (by omega) (by omega) (by omega) (by omega) taken rests escape
              · rw [contentEnd_of_plain here quote dollar escaped] at taken rests escape ⊢
                have further := contentEnd_bounds t m (i + 1) (by omega)
                have same := (agree.get above (show i < a + n by omega)).trans here
                have room := lt_size_of_getElem? same
                obtain ⟨k, rfl⟩ : ∃ j, k = j + 1 := ⟨k - 1, by omega⟩
                have shown : i + 1 < a + n ∨ u.size ≤ b + n := by omega
                have noDollar : ¬ (c = byte '$' ∧
                    (u[b + (i - a) + 1]?).any followsDollar = true) := fun both =>
                  dollar ⟨both.1, agree.any_of_any (by omega) shown (next ▸ both.2)⟩
                have noEscape : ¬ (c = byte '\\' ∧ b + (i - a) + 1 < u.size) := fun both =>
                  escaped ⟨both.1, agree.lt_size (by omega) shown (next ▸ both.2)⟩
                rw [contentEnd_of_plain same quote noDollar noEscape, ← next]
                exact ih (by omega) (by omega) (by omega) (by omega) taken rests escape

/-- Content looks at what ended it, and behind that if it is a dollar sign. -/
theorem content_looks (inside : start < t.size) :
    (content t start).stop < (content t start).reach ∧
      (t[(content t start).stop]? = some (byte '$') →
        (content t start).stop + 2 ≤ (content t start).reach) := by
  have stops := (contentEnd_bounds t (t.size - start) start (Nat.le_of_lt inside)).2
  simp only [content]
  generalize contentEnd t (t.size - start) start = stop at stops ⊢
  by_cases dollar : t[stop]? = some (byte '$')
  · have bound := lt_size_of_getElem? dollar
    rw [if_pos dollar, seen_eq (by omega)]
    exact ⟨by omega, fun _ => Nat.le_refl _⟩
  · rw [if_neg dollar, seen_eq stops]
    exact ⟨Nat.lt_succ_self _, fun isDollar => absurd isDollar dollar⟩

theorem content_agree (agree : t.Agree a u b n) (above : a ≤ start) (inside : start < t.size)
    (shown : Shown t u a b n (content t start)) :
    Same a b (content t start) (content u (b + (start - a))) := by
  obtain ⟨looked, further⟩ := content_looks inside
  have rests := shown.at_stop looked
  refine ⟨rfl, rfl, ?_⟩
  refine contentEnd_agree agree above (Nat.le_refl _) (Nat.le_refl _) (Nat.le_of_lt inside)
    (show (content t start).stop ≤ _ by omega) (show (content t start).stop < _ ∨ _ by omega)
    fun below dollar => ?_
  have behind := further dollar
  change (content t start).stop < a + n at below
  show (content t start).stop + 1 < a + n
  rcases shown with near | ⟨_, _, escape⟩
  · omega
  · have := escape rfl below dollar
    omega

theorem ofString_agree (agree : t.Agree a u b n) (above : a ≤ start) (inside : start < t.size)
    (shown : Shown t u a b n (ofString t start)) :
    Same a b (ofString t start) (ofString u (b + (start - a))) := by
  have here := Array.getElem?_eq_getElem inside
  have bounded := ofString_bounded inside
  have below : start < a + n := by
    have := bounded.stop_gt
    have := bounded.stop_le_reach
    rcases shown with near | ⟨taken, _⟩ <;> omega
  have there : u[b + (start - a)]? = some t[start] := (agree.get above below).trans here
  unfold ofString at shown bounded ⊢
  rw [there]
  rw [here] at shown bounded ⊢
  simp only [] at shown bounded ⊢
  by_cases quote : t[start] = byte '"'
  · simp only [if_pos quote]
    exact ⟨rfl, rfl, by simp only []; omega⟩
  · simp only [if_neg quote] at shown bounded ⊢
    by_cases dollar : t[start] = byte '$' ∧ t[start + 1]? = some (byte '$')
    · simp only [if_pos dollar] at shown ⊢
      have next := agree.get (p := start + 1) (by omega)
        (by rcases shown with near | ⟨taken, _⟩ <;> simp only [] at * <;> omega)
      rw [show b + (start + 1 - a) = b + (start - a) + 1 by omega] at next
      rw [next, if_pos dollar]
      exact ⟨rfl, rfl, by simp only []; omega⟩
    · simp only [if_neg dollar] at shown bounded ⊢
      by_cases opening : t[start] = byte '$' ∧ t[start + 1]? = some (byte '\x7b')
      · simp only [if_pos opening] at shown ⊢
        have next := agree.get (p := start + 1) (by omega)
          (by rcases shown with near | ⟨taken, _⟩ <;> simp only [] at * <;> omega)
        rw [show b + (start + 1 - a) = b + (start - a) + 1 by omega] at next
        rw [next, if_neg dollar, if_pos opening]
        exact ⟨rfl, rfl, by simp only []; omega⟩
      · simp only [if_neg opening] at shown bounded ⊢
        have rests : start + 1 < a + n ∨ u.size ≤ b + n := by
          have more := bounded.stop_gt
          have looked := (content_looks inside).1
          rcases shown with near | ⟨_, ended, _⟩
          · left
            omega
          · exact Or.inr ended
        have differs (c : UInt8) (other : ¬ (t[start] = byte '$' ∧ t[start + 1]? = some c)) :
            ¬ (t[start] = byte '$' ∧ u[b + (start - a) + 1]? = some c) := by
          rintro ⟨isDollar, follows⟩
          refine other ⟨isDollar, agree.get_of_some (by omega) rests ?_⟩
          rwa [show b + (start + 1 - a) = b + (start - a) + 1 by omega]
        rw [if_neg (differs _ dollar), if_neg (differs _ opening)]
        exact content_agree agree above inside shown

theorem contentEnd_dollar {m i : Nat} (enough : t.size - i ≤ m)
    (dollar : t[contentEnd t m i]? = some (byte '$')) :
    (t[contentEnd t m i + 1]?).any followsDollar = true := by
  induction m generalizing i with
  | zero =>
      rw [contentEnd] at dollar
      have := lt_size_of_getElem? dollar
      omega
  | succ m ih =>
      rw [contentEnd] at dollar ⊢
      cases here : t[i]? with
      | none =>
          simp only [here] at dollar
          contradiction
      | some c =>
          simp only [here] at dollar ⊢
          split at dollar
          next quote =>
            rw [here, quote] at dollar
            exact absurd (Option.some.inj dollar) (by decide)
          next quote =>
            rw [if_neg quote]
            split at dollar
            next escape =>
              rw [if_pos escape]
              exact escape.2
            next escape =>
              rw [if_neg escape]
              split at dollar
              next skips =>
                rw [if_pos skips]
                exact ih (by omega) dollar
              next skips =>
                rw [if_neg skips]
                exact ih (by omega) dollar

theorem ofString_stop_of_dollar (dollar : t[start]? = some (byte '$'))
    (follows : (t[start + 1]?).any followsDollar = true) : (ofString t start).stop = start + 2 := by
  obtain ⟨next, there, either⟩ := (Option.any_eq_true _ _).mp follows
  have noQuote : ¬ byte '$' = byte '"' := by decide
  simp only [followsDollar, Bool.or_eq_true, beq_iff_eq] at either
  rw [ofString, dollar]
  simp only [if_neg noQuote, there, true_and]
  rcases either with rfl | rfl
  · rfl
  · rfl

theorem ofCode_kind_ne_content : (ofCode t start).kind ≠ .stringContent := by
  unfold ofCode
  split
  · exact nofun
  · split
    · exact nofun
    · split
      · unfold plainString
        split <;> exact nofun
      · split
        · unfold number
          simp only []
          repeat' split
          all_goals exact nofun
        · split
          · unfold word
            simp only []
            repeat' split
            all_goals exact nofun
          · unfold mark
            repeat' split
            all_goals exact nofun

theorem read_of_content {frames : List Frame} (kind : (read t frames start).kind = .stringContent)
    (dollar : t[(read t frames start).stop]? = some (byte '$')) :
    (read t (Frame.after (read t frames start).lit frames) (read t frames start).stop).stop =
      (read t frames start).stop + 2 := by
  rcases frames with _ | ⟨_ | depth, rest⟩
  · exact absurd kind ofCode_kind_ne_content
  · change (ofString t start).kind = _ at kind
    change t[(ofString t start).stop]? = _ at dollar
    change (read t (Frame.after (ofString t start).lit _) (ofString t start).stop).stop =
      (ofString t start).stop + 2
    have plain : ofString t start = content t start := by
      unfold ofString at kind ⊢
      split at kind
      · contradiction
      · split at kind
        · contradiction
        next quote =>
          split at kind
          · contradiction
          next escape =>
            split at kind
            · contradiction
            next opening => rw [if_neg quote, if_neg escape, if_neg opening]
    rw [plain] at dollar ⊢
    have lit : (content t start).lit = "" := rfl
    rw [lit, Frame.after_empty]
    exact ofString_stop_of_dollar dollar (contentEnd_dollar (Nat.le_refl _) dollar)
  · exact absurd kind ofCode_kind_ne_content

/-- A lexeme is found again wherever what it was made of is. -/
theorem read_agree (agree : t.Agree a u b n) (frames : List Frame) (above : a ≤ start)
    (inside : start ≤ t.size) (room : b ≤ u.size)
    (shown : Shown t u a b n (read t frames start))
    (whole : (read t frames start).kind = .error → start + 2 ≤ a + n →
      u.size ≤ b + n ∨ (Rune.torn t start = true → Rune.torn u (b + (start - a)) = true)) :
    Same a b (read t frames start) (read u frames (b + (start - a))) := by
  rcases Nat.eq_or_lt_of_le inside with rfl | before
  · rw [read_size] at shown ⊢
    have rests : t.size < a + n ∨ u.size ≤ b + n := by
      rcases shown with near | ⟨_, ended, _⟩
      · exact Or.inl near
      · exact Or.inr ended
    have taken : t.size ≤ a + n := by
      rcases shown with near | ⟨taken, _⟩
      · exact Nat.le_of_succ_le near
      · exact taken
    have ended : u[b + (t.size - a)]? = none := by
      rcases agree.get_or_none above rests with same | ended
      · rw [same, Array.getElem?_eq_none (Nat.le_refl _)]
      · exact ended
    have size : u.size = b + (t.size - a) := by
      rw [Array.getElem?_eq_none_iff] at ended
      by_cases more : a < t.size
      · have := agree.isSome (p := t.size - 1) (by omega) (by omega) (by omega)
        omega
      · omega
    rw [← size, read_size]
    exact ⟨rfl, rfl, size⟩
  · rcases frames with _ | ⟨_ | depth, rest⟩
    · exact ofCode_agree agree above before shown whole
    · exact ofString_agree agree above before shown
    · exact ofCode_agree agree above before shown whole

end Lexeme

namespace Lexer

variable {t u : Text} {a b n : Nat} {l m : Lexer}

theorem next_agree (agree : t.Agree a u b n) (offset : m.offset = b + (l.offset - a))
    (frames : m.frames = l.frames) (above : a ≤ l.offset) (inside : l.offset ≤ t.size)
    (room : b ≤ u.size) (shown : Lexeme.Shown t u a b n (l.lexeme t))
    (whole : (l.lexeme t).kind = .error → l.opening t + 2 ≤ a + n → u.size ≤ b + n ∨
      (Rune.torn t (l.opening t) = true → Rune.torn u (b + (l.opening t - a)) = true)) :
    m.opening u = b + (l.opening t - a) ∧
      Lexeme.Same a b (l.lexeme t) (m.lexeme u) ∧
      (m.next u).1.newlineBefore = (l.next t).1.newlineBefore := by
  have later := offset_le_opening t l
  have opened := opening_le inside
  have starts : l.opening t ≤ a + n ∧ (l.opening t < a + n ∨ u.size ≤ b + n) := by
    have within := Lexeme.read_within l.frames opened
    have looked : l.opening t < (l.lexeme t).reach := Lexeme.lt_read_reach l.frames opened
    change l.opening t ≤ (l.lexeme t).stop ∧ _ at within
    rcases shown with near | ⟨taken, ended, _⟩ <;> omega
  have opening_eq : m.opening u = b + (l.opening t - a) := by
    unfold opening at starts ⊢
    rw [frames]
    cases open' : l.frames with
    | nil =>
        simp only [open'] at starts
        rw [offset]
        exact agree.skipWhile above starts.1 starts.2
    | cons frame rest =>
        cases frame with
        | string => exact offset
        | hole depth =>
            simp only [open'] at starts
            rw [offset]
            exact agree.skipWhile above starts.1 starts.2
  have newlines : Place.newlines u (m.opening u - m.offset) m.offset =
      Place.newlines t (l.opening t - l.offset) l.offset := by
    rw [opening_eq, offset, show b + (l.opening t - a) - (b + (l.offset - a)) =
      l.opening t - l.offset by omega]
    apply Place.newlines_congr
    intro k below
    rw [← agree.get (p := l.offset + k) (by omega) (by omega)]
    congr 1
    omega
  refine ⟨opening_eq, ?_, ?_⟩
  · unfold lexeme at *
    rw [opening_eq, frames]
    exact Lexeme.read_agree agree l.frames (by omega) opened room shown whole
  · rw [next_newlineBefore, next_newlineBefore, newlines]

end Lexer

end MqTree
