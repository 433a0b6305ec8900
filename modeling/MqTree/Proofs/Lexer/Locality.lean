import MqTree.Proofs.Lexer.Excerpt

namespace MqTree

open Text

/-! What the lexer finds depends on nothing but the bytes that it says it has
looked at, unless it met a character that is cut short. -/

namespace Text

variable {t u : Text} {n i : Nat}

theorem Agree.same (agree : t.Agree 0 u 0 n) (below : i < n) : u[i]? = t[i]? := by
  have := agree i below
  rw [Nat.zero_add] at this
  exact this.symm

theorem Agree.le_size (agree : t.Agree 0 u 0 n) (inside : i ≤ t.size) (below : i ≤ n) :
    i ≤ u.size := by
  cases i with
  | zero => exact Nat.zero_le _
  | succ i =>
      have same := agree.same (i := i) (by omega)
      rw [Array.getElem?_eq_getElem inside] at same
      exact lt_size_of_getElem? same

theorem Agree.size_eq (agree : t.Agree 0 u 0 n) (ended : t.size < n) : u.size = t.size := by
  have past := agree.same ended
  rw [Array.getElem?_eq_none (Nat.le_refl _), Array.getElem?_eq_none_iff] at past
  exact Nat.le_antisymm past (agree.le_size (Nat.le_refl _) (Nat.le_of_lt ended))

end Text

namespace Place

variable {t u : Text}

theorem advance_congr {n : Nat} {p : Place}
    (same : ∀ i, p.index ≤ i → i < p.index + n → u[i]? = t[i]?) :
    advance u n p = advance t n p := by
  induction n generalizing p with
  | zero => rfl
  | succ n ih =>
      have step : p.next u = p.next t := by
        rw [next, next, same p.index (Nat.le_refl _) (by omega)]
      rw [advance, advance, step]
      apply ih
      rw [index_next]
      intro i above below
      exact same i (by omega) (by omega)

theorem moveTo_congr {p : Place} {index : Nat} (ahead : p.index ≤ index)
    (same : ∀ i, p.index ≤ i → i < index → u[i]? = t[i]?) : p.moveTo u index = p.moveTo t index := by
  rw [moveTo, moveTo, if_pos ahead, if_pos ahead]
  exact advance_congr fun i above below => same i above (by omega)

end Place

namespace Rune

variable {t u : Text} {i : Nat}

theorem lead?_of_torn (cut : torn t i = true) :
    ∃ c n payload lo hi, t[i]? = some c ∧ lead? c = some (n, payload, lo, hi) ∧ 2 ≤ n ∧
      (tail? lo hi t[i + 1]?).isSome = true ∧ value? t (i + 1) lo hi payload n = none := by
  unfold torn at cut
  split at cut
  next n payload lo hi found =>
    obtain ⟨c, here, leading⟩ := Option.bind_eq_some_iff.mp found
    simp only [Bool.and_eq_true, decide_eq_true_iff, Option.isNone_iff_eq_none] at cut
    exact ⟨c, n, payload, lo, hi, here, leading, cut.1.1, cut.1.2, cut.2⟩
  next => contradiction

theorem widthAt_of_torn (cut : torn t i = true) : widthAt t i = 1 := by
  obtain ⟨c, n, payload, lo, hi, here, leading, _, _, cutShort⟩ := lead?_of_torn cut
  rw [widthAt_of_lead here leading, cutShort]
  rfl

theorem torn_of_widthAt (cut : torn t i = true) (first : u[i]? = t[i]?)
    (second : u[i + 1]? = t[i + 1]?) (one : widthAt u i = 1) : torn u i = true := by
  obtain ⟨c, n, payload, lo, hi, here, leading, long, tail, _⟩ := lead?_of_torn cut
  have there := first.trans here
  rw [widthAt_of_lead there leading] at one
  have cutShort : value? u (i + 1) lo hi payload n = none := by
    cases whole : value? u (i + 1) lo hi payload n with
    | none => rfl
    | some v =>
        rw [whole, if_pos Option.isSome_some] at one
        omega
  simp [torn, there, leading, long, second, tail, cutShort]

end Rune

namespace Lexeme

variable {t u : Text} {n start : Nat}

theorem seen_agree {i : Nat} (agree : t.Agree 0 u 0 n) (inside : i ≤ t.size) (near : seen t i ≤ n) :
    seen u i = seen t i := by
  rw [seen_eq inside] at near ⊢
  exact seen_eq (agree.le_size inside (by omega))

theorem Same.stop_eq {x y : Lexeme} (same : Same 0 0 x y) : y.stop = x.stop := by
  rw [same.stop, Nat.zero_add, Nat.sub_zero]

private theorem number_reach_eq (src : Text) (start : Nat) :
    (number src start).reach =
      seen src (if (number src start).stop = src.skipWhile isDigit (start + 1) ∧
          src[src.skipWhile isDigit (start + 1)]? = some (byte '.') then
        (number src start).stop + 1 else (number src start).stop) := by
  have past := le_skipWhile src isDigit (src.skipWhile isDigit (start + 1) + 2)
  unfold number
  simp only []
  split
  next point =>
    split
    · simp only []
      rw [if_neg (by omega)]
    · simp only [true_and]
      rw [if_pos point]
  next other =>
    simp only [true_and]
    rw [if_neg other]

theorem number_reach_agree (agree : t.Agree 0 u 0 n) (inside : start < t.size)
    (near : (number t start).reach ≤ n) (same : Same 0 0 (number t start) (number u start)) :
    (number u start).reach = (number t start).reach := by
  have stop_le := (number_bounded inside).stop_le
  have whole : t.skipWhile isDigit (start + 1) < n := by
    have looked := (number_reach t inside).1
    have shorter : t.skipWhile isDigit (start + 1) ≤ (number t start).stop := by
      have := le_skipWhile t isDigit (t.skipWhile isDigit (start + 1) + 2)
      rw [number_stop]
      split <;> omega
    omega
  have skip : u.skipWhile isDigit (start + 1) = t.skipWhile isDigit (start + 1) := by
    have := agree.skipWhile (f := isDigit) (i := start + 1) (by omega) (by omega) (by omega)
    rwa [Nat.sub_zero, Nat.sub_zero, Nat.zero_add, Nat.zero_add] at this
  rw [number_reach_eq] at near
  rw [number_reach_eq u, number_reach_eq t, same.stop_eq, skip, agree.same whole]
  refine seen_agree agree ?_ near
  split
  next point =>
    have := lt_size_of_getElem? point.2
    omega
  next => exact stop_le

theorem word_reach_eq (src : Text) (start : Nat) :
    (word src start).reach =
      if (word src start).kind = .punctuation then (word src start).stop
      else seen src (word src start).stop := by
  unfold word
  simp only []
  split
  · rfl
  · split <;> rfl

theorem word_reach_agree (agree : t.Agree 0 u 0 n) (inside : start < t.size)
    (near : (word t start).reach ≤ n) (same : Same 0 0 (word t start) (word u start)) :
    (word u start).reach = (word t start).reach := by
  rw [word_reach_eq] at near
  rw [word_reach_eq u, word_reach_eq t, same.kind, same.stop_eq]
  split
  · rfl
  next plain =>
    rw [if_neg plain] at near
    exact seen_agree agree (word_bounded inside).stop_le near

theorem plainString_reach_eq (src : Text) (start : Nat) :
    (plainString src start).reach =
      if (plainString src start).kind = .string then (plainString src start).stop
      else src.size + 1 := by
  unfold plainString
  split <;> rfl

theorem plainString_reach_agree (agree : t.Agree 0 u 0 n)
    (near : (plainString t start).reach ≤ n)
    (same : Same 0 0 (plainString t start) (plainString u start)) :
    (plainString u start).reach = (plainString t start).reach := by
  rw [plainString_reach_eq] at near
  rw [plainString_reach_eq u, plainString_reach_eq t, same.kind, same.stop_eq]
  split
  · rfl
  next unclosed =>
    rw [if_neg unclosed] at near
    rw [agree.size_eq near]

theorem mark_reach_eq {src : Text} (inside : start < src.size) (first : UInt8) :
    (mark src start first).reach =
      if (mark src start first).kind = .punctuation ∧ (mark src start first).stop = start + 2 then
        (mark src start first).stop
      else max (seen src (start + 1)) (mark src start first).stop := by
  have looked := seen_eq (t := src) (i := start + 1) inside
  unfold mark
  split
  · rw [if_pos ⟨rfl, rfl⟩]
  · split
    · simp only [looked]
      rw [if_neg (by omega)]
      omega
    · rw [if_neg (by simp)]

theorem mark_reach_agree (agree : t.Agree 0 u 0 n) (inside : start < t.size)
    (room : start < u.size) {first : UInt8} (near : (mark t start first).reach ≤ n)
    (same : Same 0 0 (mark t start first) (mark u start first)) :
    (mark u start first).reach = (mark t start first).reach := by
  rw [mark_reach_eq inside] at near
  rw [mark_reach_eq room, mark_reach_eq inside, same.kind, same.stop_eq]
  split
  · rfl
  next other =>
    rw [if_neg other] at near
    rw [seen_agree agree inside (Nat.le_trans (Nat.le_max_left _ _) near)]

theorem ofCode_reach_agree (agree : t.Agree 0 u 0 n) (inside : start < t.size)
    (near : (ofCode t start).reach ≤ n) (same : Same 0 0 (ofCode t start) (ofCode u start)) :
    (ofCode u start).reach = (ofCode t start).reach := by
  have bounded := ofCode_bounded inside
  have stop_gt := bounded.stop_gt
  have stop_le := bounded.stop_le
  have looked := bounded.stop_le_reach
  have here := Array.getElem?_eq_getElem inside
  have there : u[start]? = some t[start] := (agree.same (by omega)).trans here
  have room := lt_size_of_getElem? there
  unfold ofCode at near same stop_le ⊢
  rw [there] at same ⊢
  rw [here] at near same stop_le ⊢
  simp only [] at near same stop_le ⊢
  by_cases hash : t[start] = byte '#'
  · simp only [if_pos hash] at near same stop_le ⊢
    show seen u (comment u start).stop = seen t (comment t start).stop
    rw [same.stop_eq]
    exact seen_agree agree stop_le near
  · simp only [if_neg hash] at near same ⊢
    by_cases quote : t[start] = byte '"'
    · simp only [if_pos quote] at near same ⊢
      exact plainString_reach_agree agree near same
    · simp only [if_neg quote] at near same ⊢
      by_cases digit : isDigit t[start] = true
      · simp only [if_pos digit] at near same ⊢
        exact number_reach_agree agree inside near same
      · simp only [if_neg digit] at near same ⊢
        by_cases letter : isLetter t[start] = true
        · simp only [if_pos letter] at near same ⊢
          exact word_reach_agree agree inside near same
        · simp only [if_neg letter] at near same ⊢
          exact mark_reach_agree agree inside room near same

theorem ofString_reach_eq {src : Text} (inside : start < src.size) :
    (ofString src start).reach =
      if (ofString src start).kind = .stringContent then
        seen src (if src[(ofString src start).stop]? = some (byte '$') then
          (ofString src start).stop + 1 else (ofString src start).stop)
      else (ofString src start).stop := by
  unfold ofString
  rw [Array.getElem?_eq_getElem inside]
  simp only []
  split
  · rfl
  · split
    · rfl
    · split
      · rfl
      · exact (if_pos (show (content src start).kind = .stringContent from rfl)).symm

theorem ofString_reach_agree (agree : t.Agree 0 u 0 n) (inside : start < t.size)
    (room : start < u.size) (near : (ofString t start).reach ≤ n)
    (same : Same 0 0 (ofString t start) (ofString u start)) :
    (ofString u start).reach = (ofString t start).reach := by
  have stop_le := (ofString_bounded inside).stop_le
  rw [ofString_reach_eq inside] at near
  rw [ofString_reach_eq room, ofString_reach_eq inside, same.kind, same.stop_eq]
  split
  next content =>
    rw [if_pos content] at near
    have stops : (ofString t start).stop < n := by
      split at near
      next dollar =>
        have := lt_size_of_getElem? dollar
        rw [seen_eq (by omega)] at near
        omega
      next =>
        rw [seen_eq stop_le] at near
        exact near
    rw [agree.same stops]
    refine seen_agree agree ?_ near
    split
    next dollar => exact lt_size_of_getElem? dollar
    next => exact stop_le
  · rfl

theorem read_local (agree : t.Agree 0 u 0 n) (frames : List Frame) (inside : start ≤ t.size)
    (near : (read t frames start).reach ≤ n)
    (whole : (read t frames start).kind = .error → Rune.torn t start = true →
      Rune.torn u start = true) :
    read u frames start = read t frames start := by
  have same := read_agree agree frames (Nat.zero_le start) inside (Nat.zero_le _) (Or.inl
    (by rwa [Nat.zero_add])) fun error _ => Or.inr (by simpa using whole error)
  rw [Nat.zero_add, Nat.sub_zero] at same
  have reach : (read u frames start).reach = (read t frames start).reach := by
    rcases Nat.eq_or_lt_of_le inside with rfl | before
    · rw [read_size] at near
      have size := agree.size_eq near
      rw [read_size, ← size, read_size, ending, ending, size]
    · have looked := lt_read_reach frames inside
      have room := agree.le_size (i := start + 1) before (by omega)
      rcases frames with _ | ⟨_ | depth, rest⟩
      · exact ofCode_reach_agree agree before near same
      · exact ofString_reach_agree agree before room near same
      · exact ofCode_reach_agree agree before near same
  have stop := same.stop_eq
  obtain ⟨kind, lit, _⟩ := same
  cases found : read u frames start with
  | mk kind' lit' stop' reach' =>
      rw [found] at kind lit stop reach
      subst kind lit stop reach
      rfl

theorem ofString_kind_ne_error : (ofString t start).kind ≠ .error := by
  unfold ofString
  split
  · exact nofun
  · repeat' split
    all_goals exact nofun

theorem ofCode_of_lead {c : UInt8} {parts : Nat × Nat × UInt8 × UInt8}
    (here : t[start]? = some c) (leading : Rune.lead? c = some parts) :
    ofCode t start = mark t start c := by
  have high : 0xC2 ≤ c.toNat := by
    by_contra low
    have below : c < 0xC2 := UInt8.lt_iff_toNat_lt.mpr (Nat.lt_of_not_le low)
    rw [Rune.lead?, if_pos below] at leading
    contradiction
  have noHash : c ≠ byte '#' := by
    rintro rfl
    exact absurd high (by decide)
  have noQuote : c ≠ byte '"' := by
    rintro rfl
    exact absurd high (by decide)
  have noDigit : ¬ isDigit c = true := by
    simp only [isDigit, Bool.and_eq_true, decide_eq_true_iff, UInt8.le_iff_toNat_le]
    rintro ⟨_, low⟩
    exact absurd (Nat.le_trans high low) (by decide)
  have noLetter : ¬ isLetter c = true := by
    simp only [isLetter, Bool.or_eq_true, Bool.and_eq_true, decide_eq_true_iff,
      UInt8.le_iff_toNat_le, beq_iff_eq]
    rintro ((⟨_, low⟩ | ⟨_, low⟩) | rfl)
    · exact absurd (Nat.le_trans high low) (by decide)
    · exact absurd (Nat.le_trans high low) (by decide)
    · exact absurd high (by decide)
  rw [ofCode, here]
  simp only []
  rw [if_neg noHash, if_neg noQuote, if_neg noDigit, if_neg noLetter]

theorem mark_of_error (inside : start < t.size) {c : UInt8}
    (failed : (mark t start c).kind = .error) :
    (mark t start c).stop = start + Rune.widthAt t start ∧
      start + 2 ≤ (mark t start c).reach := by
  have noMark : ¬ ((mark t start c).kind = .punctuation ∧ (mark t start c).stop = start + 2) := by
    rintro ⟨same, _⟩
    rw [failed] at same
    contradiction
  rw [mark_reach_eq inside, if_neg noMark, seen_eq inside]
  refine ⟨?_, Nat.le_max_left _ _⟩
  unfold mark at failed ⊢
  split at failed
  · contradiction
  · split at failed
    · contradiction
    · rfl

/-- An error that starts like a character takes as much as there is of it. -/
theorem read_of_lead (frames : List Frame) {c : UInt8} {parts : Nat × Nat × UInt8 × UInt8}
    (here : t[start]? = some c) (leading : Rune.lead? c = some parts)
    (error : (read t frames start).kind = .error) :
    (read t frames start).stop = start + Rune.widthAt t start ∧
      start + 2 ≤ (read t frames start).reach := by
  have code := ofCode_of_lead here leading
  have inside := lt_size_of_getElem? here
  rcases frames with _ | ⟨_ | depth, rest⟩
  · change (ofCode t start).kind = _ at error
    change (ofCode t start).stop = _ ∧ _ ≤ (ofCode t start).reach
    rw [code] at error ⊢
    exact mark_of_error inside error
  · exact absurd error ofString_kind_ne_error
  · change (ofCode t start).kind = _ at error
    change (ofCode t start).stop = _ ∧ _ ≤ (ofCode t start).reach
    rw [code] at error ⊢
    exact mark_of_error inside error

end Lexeme

namespace Lexer

variable {t u : Text} {n : Nat} {l : Lexer}

theorem next_local (agree : t.Agree 0 u 0 n) (inside : l.offset ≤ t.size)
    (near : (l.next t).2.reach ≤ n)
    (whole : (l.next t).1.kind = .error → Rune.torn t (l.next t).1.start = true →
      Rune.torn u (l.next t).1.start = true) : l.next u = l.next t := by
  rw [next_kind, next_start] at whole
  rw [next_reach] at near
  have reached : (l.lexeme t).reach ≤ n := by omega
  have opened := opening_le inside
  have ahead := offset_le_opening t l
  have looked : l.opening t < (l.lexeme t).reach := Lexeme.lt_read_reach l.frames opened
  have within := Lexeme.read_within l.frames opened
  change l.opening t ≤ (l.lexeme t).stop ∧ _ ∧ (l.lexeme t).stop ≤ (l.lexeme t).reach ∧ _ at within
  obtain ⟨opening_eq, _, newline⟩ := next_agree (l := l) (m := l) agree (by omega) rfl
    (Nat.zero_le _) inside (Nat.zero_le _) (Or.inl (by rwa [Nat.zero_add]))
    fun error _ => Or.inr (by simpa using whole error)
  rw [Nat.zero_add, Nat.sub_zero] at opening_eq
  have lexeme_eq : l.lexeme u = l.lexeme t := by
    rw [lexeme, opening_eq]
    exact Lexeme.read_local agree l.frames opened reached whole
  have place_eq : l.place.moveTo u (l.opening t) = l.place.moveTo t (l.opening t) :=
    Place.moveTo_congr ahead fun i _ below => agree.same (by omega)
  have behind : (l.place.moveTo t (l.opening t)).moveTo u (l.lexeme t).stop =
      (l.place.moveTo t (l.opening t)).moveTo t (l.lexeme t).stop := by
    refine Place.moveTo_congr ?_ fun i _ below => agree.same (by omega)
    rw [Place.index_moveTo]
    exact within.1
  rw [next_newlineBefore, next_newlineBefore, opening_eq] at newline
  rw [next_eq u, next_eq t, opening_eq, lexeme_eq, place_eq, newline, emit, emit, behind]

/-- A character that is cut short gives the same token only where it is not
completed. -/
theorem torn_of_next_eq (agree : t.Agree 0 u 0 n) (near : (l.next t).2.reach ≤ n)
    (same : (l.next u).1 = (l.next t).1) (error : (l.next t).1.kind = .error)
    (cut : Rune.torn t (l.next t).1.start = true) : Rune.torn u (l.next t).1.start = true := by
  have opening_eq := congrArg Token.start same
  have stop_eq := congrArg Token.stop same
  have kind_eq := congrArg Token.kind same
  rw [next_start, next_start] at opening_eq
  rw [next_stop, next_stop] at stop_eq
  rw [error, next_kind] at kind_eq
  rw [next_kind] at error
  rw [next_start] at cut ⊢
  rw [next_reach] at near
  obtain ⟨c, _, _, _, _, here, leading, _⟩ := Rune.lead?_of_torn cut
  obtain ⟨stop, reached⟩ := Lexeme.read_of_lead l.frames here leading error
  change (l.lexeme t).stop = _ at stop
  change _ ≤ (l.lexeme t).reach at reached
  have first := agree.same (i := l.opening t) (by omega)
  have second := agree.same (i := l.opening t + 1) (by omega)
  have there := first.trans here
  rw [lexeme, opening_eq] at kind_eq stop_eq
  obtain ⟨stop', _⟩ := Lexeme.read_of_lead l.frames there leading kind_eq
  refine Rune.torn_of_widthAt cut first second ?_
  rw [Rune.widthAt_of_torn cut] at stop
  omega

/-! ### Many calls -/

/-- The tokens of the next `n` calls, and the lexer behind them. Behind the end
of input there is nothing else. -/
def calls (src : Text) : Nat → Lexer → List Token × Lexer
  | 0, l => ([], l)
  | n + 1, l =>
      let (token, rest) := l.next src
      let (tokens, last) := calls src n rest
      (token :: tokens, last)

theorem calls_succ (src : Text) (n : Nat) (l : Lexer) :
    calls src (n + 1) l =
      ((l.next src).1 :: (calls src n (l.next src).2).1, (calls src n (l.next src).2).2) := rfl

theorem reach_le_calls (src : Text) (n : Nat) (l : Lexer) : l.reach ≤ (calls src n l).2.reach := by
  induction n generalizing l with
  | zero => exact Nat.le_refl _
  | succ n ih =>
      have first : l.reach ≤ (l.next src).2.reach := by
        rw [next_reach]
        exact Nat.le_max_left _ _
      exact Nat.le_trans first (ih (l.next src).2)

theorem calls_reach_le {src : Text} {l : Lexer} (n : Nat) (inside : l.offset ≤ src.size)
    (looked : l.reach ≤ src.size + 1) : (calls src n l).2.reach ≤ src.size + 1 := by
  induction n generalizing l with
  | zero => exact looked
  | succ n ih =>
      have within := next_within inside
      have limit := next_reach_le inside
      rw [calls_succ]
      refine ih (l := (l.next src).2) ?_ (by omega)
      rw [next_offset, ← next_stop]
      exact within.2.2

theorem calls_local {m : Nat} (agree : t.Agree 0 u 0 m) (inside : l.offset ≤ t.size)
    (near : (calls t n l).2.reach ≤ m) :
    (calls u n l).1 = (calls t n l).1 ∧ (calls u n l).2.reach = (calls t n l).2.reach ↔
      ∀ token ∈ (calls t n l).1, token.kind = .error → Rune.torn t token.start = true →
        Rune.torn u token.start = true := by
  induction n generalizing l with
  | zero => exact iff_of_true ⟨rfl, rfl⟩ fun _ none => absurd none List.not_mem_nil
  | succ n ih =>
      have reached := Nat.le_trans (reach_le_calls t n (l.next t).2) near
      have within := next_within inside
      have later : (l.next t).2.offset ≤ t.size := by
        rw [next_offset, ← next_stop]
        exact within.2.2
      rw [calls_succ, calls_succ, List.forall_mem_cons]
      constructor
      · rintro ⟨tokens, reach⟩
        -- The same first token leaves the same lexer behind, so that the rest can be compared.
        obtain ⟨head, tail⟩ := List.cons.inj tokens
        have first := torn_of_next_eq agree reached head
        rw [next_local agree inside reached first] at tail reach
        exact ⟨first, (ih later near).mp ⟨tail, reach⟩⟩
      · rintro ⟨first, others⟩
        rw [next_local agree inside reached first]
        obtain ⟨tail, reach⟩ := (ih later near).mpr others
        exact ⟨congrArg ((l.next t).1 :: ·) tail, reach⟩

theorem offset_lt_calls_reach {src : Text} (some : 0 < n) (inside : l.offset ≤ src.size) :
    l.offset < (calls src n l).2.reach := by
  obtain ⟨n, rfl⟩ := Nat.exists_eq_succ_of_ne_zero (Nat.ne_of_gt some)
  have ahead := offset_le_opening src l
  have looked : l.opening src < (l.lexeme src).reach :=
    Lexeme.lt_read_reach l.frames (opening_le inside)
  have kept := reach_le_calls src n (l.next src).2
  rw [next_reach] at kept
  change l.offset < (calls src n (l.next src).2).2.reach
  omega

theorem start_of_agree {m o : Nat} (agree : t.Agree 0 u 0 m) (inside : o ≤ t.size) (below : o ≤ m)
    (started : start t o = .ok l) : start u o = .ok l := by
  rw [start, if_pos ⟨Int.natCast_nonneg o, Int.ofNat_le.mpr inside⟩] at started
  rw [start, if_pos ⟨Int.natCast_nonneg o, Int.ofNat_le.mpr (agree.le_size inside below)⟩, ← started]
  rw [Place.moveTo_congr (Nat.zero_le _) fun i _ before => agree.same (i := i) ?_]
  rw [Int.toNat_natCast] at before
  omega

/-- A text that nobody can tell from `src` who looked at nothing but the first
`m` bytes, where the end of `src` counts as a byte. -/
structure Shows (src other : Text) (m : Nat) : Prop where
  same : ∀ i < min m src.size, other[i]? = src[i]?
  long : m ≤ src.size → m ≤ other.size
  ended : m = src.size + 1 → other.size = src.size

theorem Shows.agree {src other : Text} {m : Nat} (shown : Shows src other m)
    (limit : m ≤ src.size + 1) : src.Agree 0 other 0 m := by
  intro i below
  rw [Nat.zero_add]
  rcases Nat.lt_or_ge i src.size with inside | outside
  · exact (shown.same i (Nat.lt_min.mpr ⟨below, inside⟩)).symm
  · have size := shown.ended (by omega)
    rw [Array.getElem?_eq_none outside, Array.getElem?_eq_none (by omega)]

/-- Calls depend on nothing but the bytes that the lexer says it has looked at,
and on whether a character that is cut short at an error is completed. -/
theorem calls_depend_on_reach (src other : Text) (o n : Nat) (l : Lexer) (inside : o ≤ src.size)
    (some : 1 ≤ n) (started : start src o = .ok l)
    (shown : Shows src other (calls src n l).2.reach) :
    start other o = .ok l ∧
      ((calls other n l).1 = (calls src n l).1 ∧
          (calls other n l).2.reach = (calls src n l).2.reach ↔
        ∀ token ∈ (calls src n l).1, token.kind = .error → Rune.torn src token.start = true →
          Rune.torn other token.start = true) := by
  have made := started
  rw [start, if_pos ⟨Int.natCast_nonneg o, Int.ofNat_le.mpr inside⟩] at made
  have here : l.offset = o := by
    rw [← Except.ok.inj made]
    exact Place.index_moveTo src _ o
  have unread : l.reach = 0 := by rw [← Except.ok.inj made]
  have room : l.offset ≤ src.size := by rwa [here]
  have agree := shown.agree (calls_reach_le n room (by omega))
  have looked := offset_lt_calls_reach some room
  exact ⟨start_of_agree agree inside (by omega) started, calls_local agree room (Nat.le_refl _)⟩

def severed : Text := #[0xF0, 0x90, 0x80, 0xFF]

theorem calls_depend_on_reach_severed : Shows severed #[0xF0, 0x90, 0x80, 0x41] 2 ∧
    (calls severed 1 initial).2.reach = 2 ∧
    (calls #[0xF0, 0x90, 0x80, 0x41] 1 initial).1 = (calls severed 1 initial).1 := by
  have shown : Shows severed #[0xF0, 0x90, 0x80, 0x41] 2 := ⟨by decide, by decide, by decide⟩
  refine ⟨shown, by decide +kernel, ?_⟩
  obtain ⟨_, same⟩ := calls_depend_on_reach severed #[0xF0, 0x90, 0x80, 0x41] 0 1 initial (by decide)
    (by decide) rfl shown
  exact (same.mpr (by decide +kernel)).1

/-- Its last byte decides how long the error is, which looks at two bytes. -/
theorem completion_unseen : start severed 0 = .ok initial ∧ (calls severed 1 initial).2.reach = 2 ∧
    Shows severed #[0xF0, 0x90, 0x80, 0x80] 2 ∧ start #[0xF0, 0x90, 0x80, 0x80] 0 = .ok initial ∧
    (calls #[0xF0, 0x90, 0x80, 0x80] 1 initial).1 ≠ (calls severed 1 initial).1 ∧
    (calls #[0xF0, 0x90, 0x80, 0x80] 1 initial).2.reach ≠ (calls severed 1 initial).2.reach :=
  ⟨rfl, by decide +kernel, ⟨by decide, by decide, by decide⟩, rfl, by decide +kernel,
    by decide +kernel⟩

end Lexer

end MqTree
