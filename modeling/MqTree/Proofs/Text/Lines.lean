import MqTree.Highlight.Style

namespace MqTree

/-! Texts in pieces, some of which are written in a style, and the pieces that
the lines of a text are. -/

structure Piece where
  bytes : Text
  style : Option Style

structure Stretch where
  start : Nat
  stop : Nat
  style : Style

namespace Piece

def written (p : Piece) : Text :=
  match p.style with
  | none => p.bytes
  | some style => style p.bytes

def source : List Piece → Text
  | [] => #[]
  | p :: rest => p.bytes ++ source rest

def output : List Piece → Text
  | [] => #[]
  | p :: rest => p.written ++ output rest

/-- Where the styled pieces are, in a text in which the first piece starts at
`pos`. -/
def stretches (pos : Nat) : List Piece → List Stretch
  | [] => []
  | p :: rest =>
      (p.style.map fun style => Stretch.mk pos (pos + p.bytes.size) style).toList ++
        stretches (pos + p.bytes.size) rest

theorem source_append (ps qs : List Piece) : source (ps ++ qs) = source ps ++ source qs := by
  induction ps with
  | nil => exact (Array.empty_append).symm
  | cons p ps ih => rw [List.cons_append, source, source, ih, Array.append_assoc]

theorem output_append (ps qs : List Piece) : output (ps ++ qs) = output ps ++ output qs := by
  induction ps with
  | nil => exact (Array.empty_append).symm
  | cons p ps ih => rw [List.cons_append, output, output, ih, Array.append_assoc]

theorem stretches_append (pos : Nat) (ps qs : List Piece) :
    stretches pos (ps ++ qs) = stretches pos ps ++ stretches (pos + (source ps).size) qs := by
  induction ps generalizing pos with
  | nil => rfl
  | cons p ps ih =>
      rw [List.cons_append, stretches, stretches, ih, source, Array.size_append, Nat.add_assoc,
        List.append_assoc]

theorem output_eq_source {pos : Nat} {ps : List Piece} (plain : stretches pos ps = []) :
    output ps = source ps := by
  induction ps generalizing pos with
  | nil => rfl
  | cons p ps ih =>
      obtain ⟨own, rest⟩ := List.append_eq_nil_iff.mp plain
      have bare : p.style = none := by
        cases given : p.style with
        | none => rfl
        | some style =>
            rw [given] at own
            contradiction
      rw [output, source, written, bare, ih rest]

end Piece

namespace Text

theorem extract_succ {text : Text} {i k : Nat} {b : UInt8} (found : text[k]? = some b)
    (order : i ≤ k) : text.extract i (k + 1) = (text.extract i k).push b := by
  obtain ⟨inside, rfl⟩ := Array.getElem?_eq_some_iff.mp found
  exact Array.extract_succ_right (Nat.lt_succ_of_le order) inside

theorem extract_append {text : Text} {i j k : Nat} (first : i ≤ j) (second : j ≤ k) :
    text.extract i j ++ text.extract j k = text.extract i k := by
  rw [Array.extract_append_extract, Nat.min_eq_left first, Nat.max_eq_right second]

theorem extract_single {text : Text} {k : Nat} {b : UInt8} (found : text[k]? = some b) :
    text.extract k (k + 1) = #[b] := by
  rw [extract_succ found (Nat.le_refl k), Array.extract_empty_of_stop_le_start (Nat.le_refl k)]
  rfl

theorem toList_extract_succ {text : Text} {k n : Nat} {b : UInt8} (found : text[k]? = some b) :
    (text.extract k (k + (n + 1))).toList = b :: (text.extract (k + 1) (k + 1 + n)).toList := by
  rw [← extract_append (Nat.le_add_right k 1) (show k + 1 ≤ k + (n + 1) by omega),
    extract_single found, Array.toList_append, Nat.add_assoc k 1 n, Nat.add_comm 1 n]
  rfl

def linesFrom (line : Text) : List UInt8 → List Text
  | [] => [line]
  | b :: bytes =>
      if b == newline then line :: linesFrom #[] bytes else linesFrom (line.push b) bytes

theorem linesFrom_ne_nil (line : Text) (bytes : List UInt8) : linesFrom line bytes ≠ [] := by
  induction bytes generalizing line with
  | nil => exact List.cons_ne_nil _ _
  | cons b bytes ih =>
      rw [linesFrom]
      split
      · exact List.cons_ne_nil _ _
      · exact ih _

def lineStep (state : List Text × Text) (b : UInt8) : List Text × Text :=
  if b == newline then (state.2 :: state.1, #[]) else (state.1, state.2.push b)

theorem foldl_lineStep (state : List Text × Text) (bytes : List UInt8) :
    ((bytes.foldl lineStep state).2 :: (bytes.foldl lineStep state).1).reverse =
      state.1.reverse ++ linesFrom state.2 bytes := by
  induction bytes generalizing state with
  | nil => exact List.reverse_cons
  | cons b bytes ih =>
      rw [List.foldl_cons, ih, linesFrom, lineStep]
      split
      · rw [List.reverse_cons, List.append_assoc]
        rfl
      · rfl

theorem lines_eq (text : Text) : text.lines = linesFrom #[] text.toList := by
  have folded : text.lines =
      ((text.foldl lineStep ([], #[])).2 :: (text.foldl lineStep ([], #[])).1).reverse := rfl
  rw [folded, ← Array.foldl_toList, foldl_lineStep]
  rfl

def joined : List Text → Text
  | [] => #[]
  | line :: rest => rest.foldl (fun out line => out.push newline ++ line) line

theorem joined_cons (line : Text) {rest : List Text} (some : rest ≠ []) :
    joined (line :: rest) = line ++ (#[newline] ++ joined rest) := by
  have pushed (lines : List Text) (a b : Text) :
      lines.foldl (fun out line => out.push newline ++ line) (a ++ b) =
        a ++ lines.foldl (fun out line => out.push newline ++ line) b := by
    induction lines generalizing b with
    | nil => rfl
    | cons line lines ih =>
        rw [List.foldl_cons, List.foldl_cons, Array.push_append, Array.append_assoc, ih]
  obtain ⟨first, more, rfl⟩ := List.exists_cons_of_ne_nil some
  rw [joined, List.foldl_cons, Array.push_eq_append, pushed, joined, Array.append_assoc]

theorem mapLines_eq (f : Text → Text) (text : Text) :
    text.mapLines f = joined ((linesFrom #[] text.toList).map fun line =>
      if line.isEmpty then line else f line) := by
  rw [← lines_eq]
  rfl

example : Text.mapLines (fun line => #[0x3e] ++ line) (Text.ofString "a\n\nb") =
    Text.ofString ">a\n\n>b" := by
  decide

/-- A range that is a line of the range `[low, high)`: there is something in it,
but no newline, and it cannot be made longer on either side. -/
structure IsLine (text : Text) (low high start stop : Nat) : Prop where
  behind : low ≤ start
  nonempty : start < stop
  before : stop ≤ high
  plain : ∀ i, start ≤ i → i < stop → text[i]? ≠ some newline
  opens : start = low ∨ text[start - 1]? = some newline
  closes : stop = high ∨ text[stop]? = some newline

def linePiece (text : Text) (style : Style) (start stop : Nat) : Piece :=
  ⟨text.extract start stop, if start < stop then some style else none⟩

/-- The lines of the range from `start` on, with newlines between them. There is
no newline before `k`, and `n` bytes are left from there on. -/
def linePieces (text : Text) (style : Style) (start k : Nat) : Nat → List Piece
  | 0 => [text.linePiece style start k]
  | n + 1 =>
      if text[k]? = some newline then
        text.linePiece style start k :: ⟨#[newline], none⟩ ::
          linePieces text style (k + 1) (k + 1) n
      else linePieces text style start (k + 1) n

variable {text : Text} {style : Style} {low high start k n : Nat}

theorem source_linePieces (order : start ≤ k) (inside : k + n ≤ text.size) :
    Piece.source (linePieces text style start k n) = text.extract start (k + n) := by
  induction n generalizing start k with
  | zero =>
      rw [linePieces, Piece.source, Piece.source, Array.append_empty]
      rfl
  | succ n ih =>
      rw [linePieces, show k + (n + 1) = k + 1 + n by omega]
      split
      next found =>
        rw [Piece.source, Piece.source, ih (Nat.le_refl _) (by omega), ← extract_single found,
          extract_append (by omega) (by omega)]
        exact extract_append order (by omega)
      next => exact ih (by omega) (by omega)

theorem written_linePiece (order : start ≤ k) (inside : k ≤ text.size) :
    (text.linePiece style start k).written =
      if (text.extract start k).isEmpty then text.extract start k
      else style (text.extract start k) := by
  have size : (text.extract start k).size = k - start := by
    rw [Array.size_extract, Nat.min_eq_left inside]
  rw [Piece.written, linePiece]
  rcases Nat.lt_or_eq_of_le order with less | rfl
  · rw [if_pos less, if_neg]
    rw [Array.isEmpty_iff_size_eq_zero, size]
    omega
  · rw [if_neg (Nat.lt_irrefl start), if_pos]
    rw [Array.isEmpty_iff_size_eq_zero, size, Nat.sub_self]

theorem output_linePieces (order : start ≤ k) (inside : k + n ≤ text.size) :
    Piece.output (linePieces text style start k n) =
      joined ((linesFrom (text.extract start k) (text.extract k (k + n)).toList).map fun line =>
        if line.isEmpty then line else style line) := by
  induction n generalizing start k with
  | zero =>
      rw [linePieces, Piece.output, Piece.output, Array.append_empty,
        written_linePiece order inside, Nat.add_zero,
        Array.extract_empty_of_stop_le_start (Nat.le_refl k)]
      rfl
  | succ n ih =>
      obtain ⟨b, found⟩ : ∃ b, text[k]? = some b :=
        ⟨text[k], Array.getElem?_eq_getElem (by omega)⟩
      rw [linePieces, toList_extract_succ found, found, linesFrom]
      by_cases ends : b = newline
      · rw [if_pos (congrArg some ends), if_pos (beq_iff_eq.mpr ends), List.map_cons,
          joined_cons _ (by simpa using linesFrom_ne_nil _ _), Piece.output, Piece.output,
          ih (Nat.le_refl _) (by omega), written_linePiece order (by omega),
          Array.extract_empty_of_stop_le_start (Nat.le_refl (k + 1))]
        rfl
      · rw [if_neg (fun same => ends (Option.some.inj same)), if_neg (by simpa using ends),
          ← extract_succ found order]
        exact ih (by omega) (by omega)

theorem isLine_iff {first stop : Nat} (behind : low ≤ start) (order : start ≤ k) (before : k ≤ high)
    (plain : ∀ i, start ≤ i → i < k → text[i]? ≠ some newline)
    (opens : start = low ∨ text[start - 1]? = some newline)
    (closes : k = high ∨ text[k]? = some newline) :
    text.IsLine low high first stop ∧ start ≤ first ∧ first ≤ k ↔
      first = start ∧ stop = k ∧ start < k := by
  constructor
  · rintro ⟨line, above, below⟩
    -- A line that starts or stops between the two ends has a newline beside it there.
    have nonempty := line.nonempty
    have within := line.before
    have same : first = start := by
      rcases Nat.eq_or_lt_of_le above with same | more
      · exact same.symm
      · rcases line.opens with rfl | broken
        · omega
        · exact absurd broken (plain (first - 1) (by omega) (by omega))
    subst same
    have ends : stop = k := by
      rcases Nat.lt_trichotomy stop k with less | same | more
      · rcases line.closes with rfl | broken
        · omega
        · exact absurd broken (plain stop (by omega) less)
      · exact same
      · rcases closes with rfl | broken
        · omega
        · exact absurd broken (line.plain k order more)
    exact ⟨rfl, ends, by omega⟩
  · rintro ⟨rfl, rfl, less⟩
    exact ⟨⟨behind, less, before, plain, opens, closes⟩, Nat.le_refl _, order⟩

theorem mem_stretches_linePiece {s : Stretch} {rest : List Piece} (order : start ≤ k)
    (inside : k ≤ text.size) :
    s ∈ Piece.stretches start (text.linePiece style start k :: rest) ↔
      s.style = style ∧ (s.start = start ∧ s.stop = k ∧ start < k) ∨
        s ∈ Piece.stretches k rest := by
  have size : start + (text.extract start k).size = k := by
    rw [Array.size_extract, Nat.min_eq_left inside, Nat.add_sub_of_le order]
  obtain ⟨first, stop, own⟩ := s
  rw [Piece.stretches, List.mem_append]
  simp only [linePiece, size]
  refine or_congr_left ?_
  split
  next less => simp [less, and_comm, and_assoc]
  next none => simp [none]

/-- The styled pieces are the lines. -/
theorem mem_stretches_linePieces {s : Stretch} (behind : low ≤ start) (order : start ≤ k)
    (size : k + n = high) (inside : high ≤ text.size)
    (plain : ∀ i, start ≤ i → i < k → text[i]? ≠ some newline)
    (opens : start = low ∨ text[start - 1]? = some newline) :
    s ∈ Piece.stretches start (linePieces text style start k n) ↔
      s.style = style ∧ text.IsLine low high s.start s.stop ∧ start ≤ s.start := by
  induction n generalizing start k with
  | zero =>
      have ends : k = high := size
      rw [linePieces, mem_stretches_linePiece order (by omega),
        ← isLine_iff behind order (by omega) plain opens (Or.inl ends)]
      constructor
      · rintro (⟨same, line, above, _⟩ | none)
        · exact ⟨same, line, above⟩
        · exact absurd none List.not_mem_nil
      · rintro ⟨same, line, above⟩
        have nonempty := line.nonempty
        have before := line.before
        exact Or.inl ⟨same, line, above, by omega⟩
  | succ n ih =>
      rw [linePieces]
      split
      -- A newline ends the line that goes up to it, and the next one starts behind.
      next found =>
        rw [mem_stretches_linePiece order (by omega),
          ← isLine_iff behind order (show k ≤ high by omega) plain opens (Or.inr found),
          Piece.stretches]
        have later := @ih (k + 1) (k + 1) (by omega) (Nat.le_refl _) (by omega)
          (by intro i above below; omega) (Or.inr found)
        simp only [Option.map_none, Option.toList_none, List.nil_append, List.size_toArray,
          List.length_singleton, later]
        constructor
        · rintro (⟨same, line, above, _⟩ | ⟨same, line, above⟩)
          · exact ⟨same, line, above⟩
          · exact ⟨same, line, by omega⟩
        · rintro ⟨same, line, above⟩
          rcases Nat.lt_or_ge k s.start with more | less
          · exact Or.inr ⟨same, line, more⟩
          · exact Or.inl ⟨same, line, above, less⟩
      next differs =>
        refine ih behind (by omega) (by omega) ?_ opens
        intro i above below
        rcases Nat.lt_succ_iff_lt_or_eq.mp below with earlier | rfl
        · exact plain i above earlier
        · exact differs

end Text

end MqTree
