import MqTree.Proofs.Lexer.Partition

namespace MqTree

open Text

/-! Whatever is done with a lexer, it stays inside the text, knows what line it
is on and what it is inside of, and after a seek it gives the tokens that a new
one gives. -/

namespace Frame

variable {frames rest : List Frame} {f : Frame}

def Alternating (frames : List Frame) : Prop :=
  ∀ i f, frames.reverse[i]? = some f → (f = .string ↔ i % 2 = 0)

theorem alternating_nil : Alternating [] := by
  intro i f found
  contradiction

theorem alternating_cons :
    Alternating (f :: rest) ↔ (f = .string ↔ rest.length % 2 = 0) ∧ Alternating rest := by
  unfold Alternating
  rw [List.reverse_cons]
  constructor
  · refine fun all => ⟨all rest.length f ?_, fun i g found => all i g ?_⟩
    · rw [← List.length_reverse, List.getElem?_concat_length]
    · rw [List.getElem?_append_left (List.getElem?_eq_some_iff.mp found).1, found]
  · rintro ⟨own, others⟩ i g found
    rcases Nat.lt_or_ge i rest.reverse.length with before | behind
    · rw [List.getElem?_append_left before] at found
      exact others i g found
    · have last := (List.getElem?_eq_some_iff.mp found).1
      rw [List.length_append, List.length_singleton] at last
      obtain rfl : i = rest.reverse.length := by omega
      rw [List.getElem?_concat_length] at found
      rw [← Option.some.inj found, List.length_reverse]
      exact own

theorem Alternating.string (alternating : Alternating rest) (even : rest.length % 2 = 0) :
    Alternating (.string :: rest) :=
  alternating_cons.mpr ⟨iff_of_true rfl even, alternating⟩

theorem Alternating.hole (alternating : Alternating rest) (odd : rest.length % 2 = 1)
    (depth : Nat) : Alternating (.hole depth :: rest) :=
  alternating_cons.mpr ⟨iff_of_false Frame.noConfusion (by omega), alternating⟩

/-- A string opens a hole and a hole opens a string, and only the innermost
frame is closed. -/
theorem Alternating.after (alternating : Alternating frames) (lit : String) :
    Alternating (after lit frames) := by
  unfold Frame.after
  split
  next rest =>
    obtain ⟨own, others⟩ := alternating_cons.mp alternating
    have even := own.mp rfl
    split
    · exact others
    · split
      · exact alternating.hole (by rw [List.length_cons]; omega) 0
      · exact alternating
  next depth rest =>
    obtain ⟨own, others⟩ := alternating_cons.mp alternating
    have odd : rest.length % 2 = 1 := by
      have differs : ¬rest.length % 2 = 0 := fun even => Frame.noConfusion (own.mpr even)
      omega
    split
    · exact alternating.string (by rw [List.length_cons]; omega)
    · split
      · exact others.hole odd (depth + 1)
      · split
        · cases depth with
          | zero => exact others
          | succ depth => exact others.hole odd depth
        · exact alternating
  next =>
    split
    · exact alternating_nil.string rfl
    · exact alternating_nil

end Frame

namespace Cursor

structure Sound (src : Text) (c : Cursor) : Prop where
  inside : c.place.index ≤ src.size
  line : c.place.line = (src.breaks c.place.index).length + 1
  lineStart : c.place.lineStart = ((src.breaks c.place.index).getLast?.map (· + 1)).getD 0
  frames : Frame.Alternating c.frames

variable {src : Text} {c : Cursor}

theorem Sound.counted (sound : c.Sound src) : c.place.Counted src :=
  Place.counted_iff.mpr ⟨sound.line, sound.lineStart⟩

theorem Sound.of_counted (counted : c.place.Counted src) (inside : c.place.index ≤ src.size)
    (frames : Frame.Alternating c.frames) : c.Sound src := by
  obtain ⟨line, start⟩ := Place.counted_iff.mp counted
  exact ⟨inside, line, start, frames⟩

theorem sound_moveTo {p : Place} (counted : p.Counted src) {index : Nat}
    (inside : index ≤ src.size) : Sound src ⟨p.moveTo src index, []⟩ := by
  refine .of_counted (counted.moveTo index) ?_ Frame.alternating_nil
  rwa [Place.index_moveTo]

end Cursor

namespace Lexer

variable {src : Text} {l : Lexer}

theorem next_sound (sound : l.toCursor.Sound src) : (l.next src).2.toCursor.Sound src := by
  have within := next_within (l := l) sound.inside
  refine .of_counted (next_counted sound.counted sound.inside).1 ?_ ?_
  · change (l.next src).2.offset ≤ src.size
    rw [next_offset, ← next_stop]
    exact within.2.2
  · rw [next_frames]
    exact sound.frames.after _

/-- What can be done with a lexer. The cursors that are saved are numbered. -/
inductive Move where
  | next
  | save
  | restore (saved : Nat)
  | seek (pos : Int)
  | touch (stop : Int)
  deriving DecidableEq, Repr

namespace Move

def Allowed (src : Text) (saved : Nat) : Move → Prop
  | .restore i => i < saved
  | .seek pos => 0 ≤ pos ∧ pos ≤ src.size
  | .next | .save | .touch _ => True

def saves (saved : Nat) : Move → Nat
  | .save => saved + 1
  | .next | .restore _ | .seek _ | .touch _ => saved

def AllAllowed (src : Text) : Nat → List Move → Prop
  | _, [] => True
  | saved, move :: moves => move.Allowed src saved ∧ AllAllowed src (move.saves saved) moves

theorem allAllowed_append {src : Text} {saved : Nat} {front back : List Move} :
    AllAllowed src saved (front ++ back) ↔
      AllAllowed src saved front ∧ AllAllowed src (front.foldl saves saved) back := by
  induction front generalizing saved with
  | nil => exact (and_iff_right trivial).symm
  | cons move front ih => rw [List.cons_append, AllAllowed, ih, AllAllowed, and_assoc]; rfl

end Move

structure Trace where
  lexer : Lexer
  saved : List Cursor
  tokens : List Token

namespace Trace

def new (l : Lexer) : Trace := ⟨l, [], []⟩

def step (src : Text) (w : Trace) : Move → Except Violation Trace
  | .next =>
      .ok { w with
        lexer := (w.lexer.next src).2
        tokens := w.tokens ++ [(w.lexer.next src).1] }
  | .save => .ok { w with saved := w.saved ++ [w.lexer.save] }
  | .restore i =>
      match w.saved[i]? with
      | some c => .ok { w with lexer := w.lexer.restore c }
      | none => .error .outOfRange
  | .seek pos => (w.lexer.seek src pos).map fun l => { w with lexer := l }
  | .touch stop => .ok { w with lexer := w.lexer.touch stop }

def run (src : Text) (w : Trace) (moves : List Move) : Except Violation Trace :=
  moves.foldlM (fun w move => w.step src move) w

structure Sound (src : Text) (w : Trace) : Prop where
  lexer : w.lexer.toCursor.Sound src
  saved : ∀ c ∈ w.saved, c.Sound src
  tokens : ∀ token ∈ w.tokens, token.start ≤ token.stop ∧ token.stop ≤ src.size

variable {w w' : Trace} {move : Move} {moves : List Move}

theorem step_seek {pos : Int} : w.step src (.seek pos) = .ok w' ↔
    (0 ≤ pos ∧ pos ≤ src.size) ∧
      { w with lexer := ⟨⟨w.lexer.place.moveTo src pos.toNat, []⟩, w.lexer.reach⟩ } = w' := by
  rw [step, Lexer.seek]
  split
  next inside =>
    rw [and_iff_right inside]
    exact ⟨Except.ok.inj, congrArg Except.ok⟩
  next outside => exact iff_of_false (fun made => by cases made) fun found => outside found.1

/-- A move that can be asked for is made, it leaves the lexer sound, and nothing
that was examined is forgotten. -/
theorem step_sound (sound : w.Sound src) (allowed : move.Allowed src w.saved.length) :
    ∃ w', w.step src move = .ok w' ∧ w'.Sound src ∧ w'.saved.length = move.saves w.saved.length ∧
      w.lexer.reach ≤ w'.lexer.reach := by
  cases move with
  | next =>
      obtain ⟨_, order, within⟩ := next_within (l := w.lexer) sound.lexer.inside
      refine ⟨_, rfl, ⟨next_sound sound.lexer, sound.saved, ?_⟩, rfl, ?_⟩
      · exact List.forall_mem_append.mpr
          ⟨sound.tokens, List.forall_mem_singleton.mpr ⟨order, within⟩⟩
      · change w.lexer.reach ≤ (w.lexer.next src).2.reach
        rw [next_reach]
        exact Nat.le_max_left _ _
  | save =>
      refine ⟨_, rfl, ⟨sound.lexer, ?_, sound.tokens⟩, List.length_append, Nat.le_refl _⟩
      exact List.forall_mem_append.mpr ⟨sound.saved, List.forall_mem_singleton.mpr sound.lexer⟩
  | restore i =>
      have found : w.saved[i]? = some w.saved[i] := List.getElem?_eq_getElem allowed
      refine ⟨{ w with lexer := w.lexer.restore w.saved[i] }, ?_, ?_, rfl, Nat.le_refl _⟩
      · rw [step, found]
      · exact ⟨sound.saved _ (List.mem_of_getElem? found), sound.saved, sound.tokens⟩
  | seek pos =>
      have inside : pos.toNat ≤ src.size := Int.toNat_le.mpr allowed.2
      refine ⟨{ w with lexer := ⟨⟨w.lexer.place.moveTo src pos.toNat, []⟩, w.lexer.reach⟩ },
        ?_, ⟨?_, sound.saved, sound.tokens⟩, rfl, Nat.le_refl _⟩
      · exact step_seek.mpr ⟨allowed, rfl⟩
      · exact Cursor.sound_moveTo sound.lexer.counted inside
  | touch stop =>
      exact ⟨_, rfl, ⟨sound.lexer, sound.saved, sound.tokens⟩, rfl, Nat.le_max_left _ _⟩

theorem run_cons_eq_ok : w.run src (move :: moves) = .ok w' ↔
    ∃ w₁, w.step src move = .ok w₁ ∧ w₁.run src moves = .ok w' := by
  rw [run, List.foldlM_cons]
  cases first : w.step src move with
  | error e => exact iff_of_false (fun made => by cases made) fun ⟨_, made, _⟩ => by cases made
  | ok w₁ =>
      constructor
      · exact fun rest => ⟨w₁, rfl, rest⟩
      · rintro ⟨w₂, same, rest⟩
        obtain rfl := Except.ok.inj same
        exact rest

theorem run_sound (sound : w.Sound src)
    (allowed : Move.AllAllowed src w.saved.length moves) :
    ∃ w', w.run src moves = .ok w' ∧ w'.Sound src ∧
      w'.saved.length = moves.foldl Move.saves w.saved.length ∧
      w.lexer.reach ≤ w'.lexer.reach := by
  induction moves generalizing w with
  | nil => exact ⟨w, rfl, sound, rfl, Nat.le_refl _⟩
  | cons move moves ih =>
      obtain ⟨w', made, sound', saves, kept⟩ := step_sound sound allowed.1
      obtain ⟨w'', rest, sound'', saves', kept'⟩ := ih sound' (saves ▸ allowed.2)
      refine ⟨w'', run_cons_eq_ok.mpr ⟨w', made, rest⟩, sound'', ?_, Nat.le_trans kept kept'⟩
      rw [saves', saves, List.foldl_cons]

/-! ### Seeking -/

/-- Whether two lexers stand at the same place, one of them having given some
tokens before it gave those that the other gave. -/
structure Alike (before : List Token) (w v : Trace) : Prop where
  cursor : w.lexer.toCursor = v.lexer.toCursor
  tokens : w.tokens = before ++ v.tokens

variable {v : Trace} {before : List Token}

theorem step_alike (alike : Alike before w v) (kept : ∀ i, move ≠ .restore i)
    (made : w.step src move = .ok w') :
    ∃ v', v.step src move = .ok v' ∧ Alike before w' v' := by
  cases move with
  | next =>
      obtain rfl := Except.ok.inj made
      obtain ⟨token, rest⟩ := @next_of_cursor src _ _ alike.cursor
      refine ⟨_, rfl, ?_, ?_⟩
      · change (w.lexer.next src).2.toCursor = (v.lexer.next src).2.toCursor
        rw [rest]
      · change w.tokens ++ _ = before ++ (v.tokens ++ _)
        rw [alike.tokens, token, List.append_assoc]
  | save =>
      obtain rfl := Except.ok.inj made
      exact ⟨_, rfl, alike.cursor, alike.tokens⟩
  | restore i => exact absurd rfl (kept i)
  | seek pos =>
      obtain ⟨inside, rfl⟩ := step_seek.mp made
      refine ⟨_, step_seek.mpr ⟨inside, rfl⟩, ?_, alike.tokens⟩
      change (⟨w.lexer.toCursor.place.moveTo src pos.toNat, []⟩ : Cursor) = _
      rw [alike.cursor]
  | touch stop =>
      obtain rfl := Except.ok.inj made
      exact ⟨_, rfl, alike.cursor, alike.tokens⟩

theorem run_alike (alike : Alike before w v) (kept : ∀ i, .restore i ∉ moves)
    (made : w.run src moves = .ok w') :
    ∃ v', v.run src moves = .ok v' ∧ Alike before w' v' := by
  induction moves generalizing w v with
  | nil =>
      obtain rfl := Except.ok.inj made
      exact ⟨v, rfl, alike⟩
  | cons move moves ih =>
      obtain ⟨w₁, first, rest⟩ := run_cons_eq_ok.mp made
      have apart i := not_or.mp (mt List.mem_cons.mpr (kept i))
      obtain ⟨v₁, first', alike'⟩ := step_alike alike (fun i => Ne.symm (apart i).1) first
      obtain ⟨v', rest', done⟩ := ih alike' (fun i => (apart i).2) rest
      exact ⟨v', run_cons_eq_ok.mpr ⟨v₁, first', rest'⟩, done⟩

theorem run_seek (sound : w.Sound src) {pos : Int} (kept : ∀ i, .restore i ∉ moves)
    (made : w.run src (.seek pos :: moves) = .ok w') :
    ∃ l v, start src pos = .ok l ∧ (new l).run src moves = .ok v ∧
      w'.tokens = w.tokens ++ v.tokens := by
  obtain ⟨w₁, sought, rest⟩ := run_cons_eq_ok.mp made
  obtain ⟨inside, rfl⟩ := step_seek.mp sought
  have alike : Alike w.tokens
      { w with lexer := ⟨⟨w.lexer.place.moveTo src pos.toNat, []⟩, w.lexer.reach⟩ }
      (new ⟨⟨Place.origin.moveTo src pos.toNat, []⟩, 0⟩) := by
    refine ⟨?_, (List.append_nil _).symm⟩
    change (⟨w.lexer.place.moveTo src pos.toNat, []⟩ : Cursor) = _
    rw [sound.lexer.counted.moveTo_eq]
    rfl
  obtain ⟨v, run, done⟩ := run_alike alike kept rest
  exact ⟨_, v, start_eq inside, run, done.tokens⟩

end Trace

/-- Whatever is done with a lexer from its start on, nothing is out of range,
the lexer and the cursors that were saved are sound, what was examined stays so,
and a seek makes the lexer forget all that was before. -/
theorem moves_sound (src : Text) (offset : Int) (front back : List Move)
    (inside : 0 ≤ offset ∧ offset ≤ src.size) (allowed : Move.AllAllowed src 0 (front ++ back)) :
    ∃ l w w', start src offset = .ok l ∧ (Trace.new l).run src front = .ok w ∧
      w.run src back = .ok w' ∧ w.Sound src ∧ w'.Sound src ∧ w.lexer.reach ≤ w'.lexer.reach ∧
      ∀ pos moves, back = .seek pos :: moves → (∀ i, .restore i ∉ moves) →
        ∃ m v, start src pos = .ok m ∧ (Trace.new m).run src moves = .ok v ∧
          w'.tokens = w.tokens ++ v.tokens := by
  obtain ⟨early, late⟩ := Move.allAllowed_append.mp allowed
  have fresh : (Trace.new ⟨⟨Place.origin.moveTo src offset.toNat, []⟩, 0⟩).Sound src := by
    refine ⟨?_, fun _ none => absurd none List.not_mem_nil,
      fun _ none => absurd none List.not_mem_nil⟩
    exact Cursor.sound_moveTo (Place.counted_origin src) (Int.toNat_le.mpr inside.2)
  obtain ⟨w, run, sound, saves, _⟩ := Trace.run_sound fresh early
  obtain ⟨w', run', sound', _, kept⟩ := Trace.run_sound sound (saves ▸ late)
  refine ⟨_, w, w', start_eq inside, run, run', sound, sound', kept, ?_⟩
  rintro pos moves rfl unrestored
  exact Trace.run_seek sound unrestored run'

/-- From inside the string back to its start, and on into its second line. -/
theorem moves_sound_straddling :
    Move.AllAllowed straddling 0
      [.next, .save, .next, .seek 9, .touch 20, .restore 0, .next, .seek 4, .save, .next, .next] ∧
    ∃ l w w', start straddling 0 = .ok l ∧
      (Trace.new l).run straddling
        [.next, .save, .next, .seek 9, .touch 20, .restore 0, .next] = .ok w ∧
      w.run straddling [.seek 4, .save, .next, .next] = .ok w' ∧ w'.Sound straddling ∧
      ∃ m v, start straddling 4 = .ok m ∧
        (Trace.new m).run straddling [.save, .next, .next] = .ok v ∧
        w'.tokens = w.tokens ++ v.tokens := by
  have allowed : Move.AllAllowed straddling 0
      ([.next, .save, .next, .seek 9, .touch 20, .restore 0, .next] ++
        [.seek 4, .save, .next, .next]) := by
    simp only [List.cons_append, List.nil_append, Move.AllAllowed, Move.Allowed, Move.saves]
    decide
  refine ⟨allowed, ?_⟩
  obtain ⟨l, w, w', started, run, run', _, sound, _, seek⟩ :=
    moves_sound straddling 0 _ _ (by decide) allowed
  exact ⟨l, w, w', started, run, run', sound, seek 4 _ rfl (by simp)⟩

end Lexer

end MqTree
