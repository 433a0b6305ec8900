import MqTree.Proofs.Grammar.First
import MqTree.Proofs.Grammar.Steady
import MqTree.Proofs.Parser.Facing

namespace MqTree.Parser

/-! When a parse takes a token, and how deep it may go before it does. -/

variable {c : Context} {s r q : State} {firm : List String}

namespace State

theorem among_nothing : ¬s.among TermSet.empty = true := by
  unfold among
  cases s.terminal <;> simp [TermSet.empty]

theorem among_of_mem {alts : List Expr} {alt : Expr} (member : alt ∈ alts)
    (among : s.among (c.table.first alt) = true) :
    s.among (c.table.firstOfAlts alts) = true := by
  induction alts with
  | nil => contradiction
  | cons e es ih =>
      rw [Table.firstOfAlts_cons, among_or, Bool.or_eq_true]
      rcases List.mem_cons.mp member with rfl | later
      · exact Or.inl among
      · exact Or.inr (ih later)

theorem among_of_within {e last : Expr} {alts : List Expr} (within : e.within c.table last = true)
    (member : last ∈ alts) (own : s.among (c.table.first e) = true) :
    s.among (c.table.firstOfAlts alts) = true := by
  rw [Expr.within, Bool.and_eq_true, beq_iff_eq] at within
  refine among_of_mem member ?_
  rw [← within.1] at own
  unfold among at own ⊢
  split at own
  · rw [BitVec.getLsbD_and, Bool.and_eq_true] at own
    exact own.2
  · contradiction

mutual

/-- Where the first terminals say it all, a token among them can start the
expression. -/
theorem canStart_of_first (e : Expr) (holds : e.slips c.table firm false = false)
    (among : s.among (c.table.first e) = true) : s.canStart c e = true := by
  match e with
  | .tok sym words =>
      rw [Expr.slips, Bool.or_eq_false_iff, Bool.false_or, Bool.not_eq_false'] at holds
      rw [canStart, Bool.and_eq_true]
      exact ⟨among, by rw [accepts, holds.2, Bool.true_or]⟩
  | .field _ body =>
      rw [Expr.slips] at holds
      rw [canStart]
      exact canStart_of_first body holds among
  | .seq items =>
      rw [Expr.slips] at holds
      rw [canStart]
      exact sequenceCanStart_of_first items holds among
  | .choice alts =>
      rw [Expr.slips] at holds
      rw [canStart]
      exact anyCanStart_of_first alts holds among
  | .ordered alts =>
      rw [Expr.slips] at holds
      rw [canStart]
      exact trialsCanStart_of_first alts holds among
  | .immediate _ | .sameLine _ => simp [Expr.slips] at holds
  | .leaf .. | .ref _ | .opt _ | .rep .. | .sepBy .. | .stmts .. | .suffixed .. | .binary ..
  | .unary .. => exact among

theorem sequenceCanStart_of_first (items : List Expr)
    (holds : Expr.slipsInSeq c.table firm false items = false)
    (among : s.among (c.table.firstOfSeq items) = true) : s.sequenceCanStart c items = true := by
  match items with
  | [] =>
      exact absurd among among_nothing
  | e :: es =>
      rw [Expr.slipsInSeq, Bool.or_eq_false_iff, Bool.and_eq_false_iff] at holds
      rw [Table.firstOfSeq_cons] at among
      rw [sequenceCanStart, Bool.or_eq_true, Bool.and_eq_true]
      cases empty : c.table.nullable e with
      | false =>
          rw [empty] at among
          exact Or.inl (canStart_of_first e holds.1 among)
      | true =>
          rw [empty, if_pos rfl, among_or, Bool.or_eq_true] at among
          have rest := holds.2.resolve_left (by rw [empty]; decide)
          exact among.imp (canStart_of_first e holds.1)
            fun later => ⟨rfl, sequenceCanStart_of_first es rest later⟩

theorem anyCanStart_of_first (alts : List Expr)
    (holds : Expr.slipsInAlts c.table firm false alts = false)
    (among : s.among (c.table.firstOfAlts alts) = true) : s.anyCanStart c alts = true := by
  match alts with
  | [] =>
      exact absurd among among_nothing
  | e :: es =>
      rw [Expr.slipsInAlts, Bool.or_eq_false_iff] at holds
      rw [Table.firstOfAlts_cons, among_or, Bool.or_eq_true] at among
      rw [anyCanStart, Bool.or_eq_true]
      exact among.imp (canStart_of_first e holds.1) (anyCanStart_of_first es holds.2)

theorem trialsCanStart_of_first (alts : List Expr)
    (holds : Expr.slipsInTrials c.table firm alts = false)
    (among : s.among (c.table.firstOfAlts alts) = true) : s.anyCanStart c alts = true := by
  match alts with
  | [] => contradiction
  | [e] =>
      rw [Table.firstOfAlts_cons, among_or, Bool.or_eq_true] at among
      have own := among.resolve_right among_nothing
      rw [anyCanStart, canStart_of_first e holds own, Bool.true_or]
  | e :: next :: rest =>
      rw [Expr.slipsInTrials_cons, Bool.or_eq_false_iff, Bool.or_eq_false_iff,
        Bool.not_eq_false'] at holds
      rw [Table.firstOfAlts_cons, among_or, Bool.or_eq_true] at among
      have later : s.among (c.table.firstOfAlts (next :: rest)) = true :=
        among.elim (among_of_within holds.1.2 (List.getLast_mem _)) id
      rw [anyCanStart, trialsCanStart_of_first (next :: rest) holds.2 later, Bool.or_true]

end

end State

theorem State.canStart_body {e body : Expr} (holds : body.slips c.table firm false = false)
    (same : c.table.first e = c.table.first body) (starts : s.canStart c e = true) :
    s.canStart c body = true :=
  State.canStart_of_first body holds (same ▸ State.among_of_canStart e starts)

structure Suits (c : Context) (firm : List String) (s : State) (e : Expr) : Prop where
  holds : e.slips c.table firm true = false
  fits : s.canStart c e = true ∨ c.table.nullable e = true

theorem Suits.of_first {e : Expr} (holds : e.slips c.table firm false = false)
    (fits : s.among (c.table.first e) = true ∨ c.table.nullable e = true) : Suits c firm s e :=
  ⟨e.slips_heeded holds, fits.imp_left (State.canStart_of_first e holds)⟩

theorem Suits.body {e body : Expr} (suits : Suits c firm s e)
    (same : e.slips c.table firm true = body.slips c.table firm false) :
    body.slips c.table firm false = false :=
  same.symm.trans suits.holds

theorem Suits.spared {e body : Expr} (suits : Suits c firm s e) (spares : e.Spares body) :
    body.slips c.table firm true = false ∧ (s.canStart c e = true → s.canStart c body = true) := by
  have holds := suits.body (spares.slips_eq true)
  exact ⟨body.slips_heeded holds, State.canStart_body holds spares.first_eq⟩

theorem Suits.cons {e : Expr} {es : List Expr} (suits : Suits c firm s (.seq (e :: es))) :
    Suits c firm s e ∧ (s.canStart c e = false →
      Suits c firm s (.seq es) ∧ c.table.nullable e = true ∧
        s.canStart c (.seq (e :: es)) = s.canStart c (.seq es)) := by
  obtain ⟨holds, fits⟩ := suits
  have starts : s.canStart c (.seq (e :: es)) =
      (s.canStart c e || (c.table.nullable e && s.canStart c (.seq es))) := by
    simp only [State.canStart, State.sequenceCanStart]
  have empty : c.table.nullable (.seq (e :: es)) =
      (c.table.nullable e && c.table.nullable (.seq es)) := by
    simp only [Table.nullable, Expr.nullable, Expr.allNullable]
  have slips : (Expr.seq (e :: es)).slips c.table firm true =
      (e.slips c.table firm true ||
        (c.table.nullable e && (Expr.seq es).slips c.table firm true)) := by
    simp only [Expr.slips, Expr.slipsInSeq, Table.nullable]
  rw [starts, empty, Bool.or_eq_true, Bool.and_eq_true, Bool.and_eq_true] at fits
  rw [slips, Bool.or_eq_false_iff] at holds
  refine ⟨⟨holds.1, ?_⟩, fun other => ?_⟩
  · rcases fits with (first | ⟨none, _⟩) | ⟨none, _⟩
    · exact Or.inl first
    · exact Or.inr none
    · exact Or.inr none
  · rw [other, Bool.false_eq_true, false_or, ← and_or_left] at fits
    rw [fits.1, Bool.true_and] at holds
    exact ⟨⟨holds.2, fits.2⟩, fits.1, by rw [starts, other, fits.1, Bool.false_or, Bool.true_and]⟩

theorem Suits.later {alt next : Expr} {rest : List Expr}
    (suits : Suits c firm s (.ordered (alt :: next :: rest))) :
    alt.slips c.table firm true = false ∧ Suits c firm s (.ordered (next :: rest)) ∧
      (s.canStart c (.ordered (alt :: next :: rest)) = true →
        s.canStart c (.ordered (next :: rest)) = true) := by
  obtain ⟨holds, fits⟩ := suits
  rw [Expr.slips, Expr.slipsInTrials_cons, Bool.or_eq_false_iff, Bool.or_eq_false_iff,
    Bool.not_eq_false'] at holds
  obtain ⟨⟨own, within⟩, others⟩ := holds
  have last := List.getLast_mem (List.cons_ne_nil next rest)
  have starts (starts : s.canStart c (.ordered (alt :: next :: rest)) = true) :
      s.canStart c (.ordered (next :: rest)) = true := by
    rw [State.canStart, State.anyCanStart, Bool.or_eq_true] at starts
    rw [State.canStart]
    refine starts.elim (fun here => ?_) id
    exact State.trialsCanStart_of_first _ others
      (State.among_of_within within last (State.among_of_canStart alt here))
  refine ⟨own, ⟨by rwa [Expr.slips], fits.imp starts fun empty => ?_⟩, starts⟩
  rw [Table.nullable, Expr.nullable, Expr.anyNullable, Bool.or_eq_true] at empty
  refine empty.elim (fun here => ?_) id
  rw [Expr.within, Bool.and_eq_true, Bool.or_eq_true, Bool.not_eq_true'] at within
  rw [Table.nullable, Expr.nullable, Expr.anyNullable_eq, List.any_eq_true]
  exact ⟨_, last, within.2.resolve_left (by rw [Table.nullable, here]; decide)⟩

structure Stage (c : Context) (s : State) : Prop extends Faces c s where
  fresh : s.reuse.entries = []

structure Still (s r : State) : Prop where
  token : r.token = s.token
  terminal : r.terminal = s.terminal
  prevEnd : r.prevEnd = s.prevEnd

theorem Still.flush (s : State) : Still s { s with pending := [] } := ⟨rfl, rfl, rfl⟩

theorem Still.looksLike (still : Still s r) : LooksLike c s c r where
  table := rfl
  terminal := still.terminal
  accepts words := by rw [State.accepts, State.accepts, still.token]
  newline := by rw [still.token]
  adjacent := by rw [still.token, still.prevEnd]

theorem Still.canStart (still : Still s r) (e : Expr) : r.canStart c e = s.canStart c e :=
  still.looksLike.canStart e

theorem Suits.still {e : Expr} (suits : Suits c firm s e) (still : Still s r) : Suits c firm r e :=
  ⟨suits.holds, by rw [still.canStart]; exact suits.fits⟩

structure Onward (c : Context) (s r : State) : Prop extends Stage c r where
  still : Still s r ∨ s.token.start < r.token.start

namespace Onward

theorem start_le (onward : Onward c s r) : s.token.start ≤ r.token.start := by
  rcases onward.still with still | later
  · rw [still.token]
  · exact Nat.le_of_lt later

theorem trans (first : Onward c s r) (second : Onward c r q) : Onward c s q := by
  refine ⟨second.toStage, ?_⟩
  rcases first.still with ⟨token, terminal, prevEnd⟩ | later
  · rw [← token]
    refine second.still.imp_left fun still => ?_
    exact ⟨still.token.trans token, still.terminal.trans terminal, still.prevEnd.trans prevEnd⟩
  · exact Or.inr (Nat.lt_of_lt_of_le later second.start_le)

end Onward

namespace Stage

theorem initial (c : Context) : Stage c (.initial c .empty) := by
  refine ⟨.initial c .empty, ?_⟩
  rw [State.initial, State.advance, (State.kept_advanceUpTo c _ _).1]
  rfl

theorem returns (stage : Stage c s) (returns : Returns s r) : Onward c s r where
  toFaces := stage.toFaces.returns returns
  fresh := by rw [returns.reuse, stage.fresh]
  still := by
    obtain ⟨_, _, rfl⟩ := returns
    exact Or.inl ⟨rfl, rfl, rfl⟩

theorem refl (stage : Stage c s) : Onward c s s := stage.returns (.refl s)

theorem flush (stage : Stage c s) : Onward c s { s with pending := [] } :=
  ⟨⟨stage.toFaces.flush, stage.fresh⟩, Or.inl (.flush s)⟩

theorem moved (stage : Stage c s) : Stage c (s.moved c) :=
  ⟨stage.toFaces.moved, by rw [State.reuse_moved, stage.fresh]⟩

theorem take (stage : Stage c s) (more : s.token.isEnd = false) : Onward c s (s.moved c) :=
  ⟨stage.moved, Or.inr (stage.start_lt_moved more)⟩

theorem start_lt_skipTo {e : Expr} {error : Item} (stage : Stage c s)
    (found : skipTo c e s = (some error, r)) : s.token.start < r.token.start := by
  have skip {n count total : Nat} {skipped all : List Item} {s r : State} (stage : Stage c s)
      (found : skipUpTo c e n count skipped s = (some (all, total), r)) :
      s.token.start < r.token.start := by
    induction n generalizing s count skipped with
    | zero => simp [skipUpTo] at found
    | succ n ih =>
        rw [skipUpTo] at found
        split at found
        next skippable =>
          have later := stage.start_lt_moved (isEnd_of_skippable skippable)
          change (if (s.moved c).canStart c e then _ else _) = _ at found
          split at found
          · rw [← (Prod.mk.inj found).2]
            exact later
          · exact Nat.lt_trans later (ih stage.moved found)
        next => simp at found
  unfold skipTo at found
  split at found
  next skipped count next result =>
    rw [← (Prod.mk.inj found).2]
    show s.token.start < next.token.start
    exact skip stage result
  next => simp at found

theorem skipTo {e : Expr} {error : Item} (stage : Stage c s)
    (found : skipTo c e s = (some error, r)) : Onward c s r where
  toFaces := (stage.toFaces.skipTo found).1
  fresh := by rw [reuse_skipTo found, stage.fresh]
  still := Or.inr (stage.start_lt_skipTo found)

theorem consumeUntil (stage : Stage c s) {stop : State → Bool}
    (stops : ∀ q, q.token.isEnd = true → stop q = true) (n : Nat) :
    Onward c s (consumeUntil c stop n s).2 := by
  induction n generalizing s with
  | zero => exact stage.refl
  | succ n ih =>
      rw [Parser.consumeUntil]
      split
      · exact stage.refl
      next going =>
        have more : s.token.isEnd = false := by
          apply Bool.eq_false_iff.mpr
          exact fun ended => going (stops s ended)
        exact (stage.take more).trans (ih stage.moved)

theorem skipStatement (stage : Stage c s) (more : s.token.isEnd = false) (item : Expr)
    (closers : List String) :
    Onward c s (skipStatement c item closers s).2 ∧
      s.token.start < (skipStatement c item closers s).2.token.start := by
  have stops (q : State) (ended : q.token.isEnd = true) : resumes c item closers q = true := by
    simp [resumes, State.atListEnd, ended]
  have rest := stage.moved.consumeUntil stops c.src.size
  have logged := rest.toStage.returns (.log _ (.unexpected
    ((s.consumeAny c).1 ++ (Parser.consumeUntil c (resumes c item closers) c.src.size
      (s.moved c)).1).length (Parser.consumeUntil c (resumes c item closers) c.src.size
      (s.moved c)).2.token))
  refine ⟨(stage.take more).trans (rest.trans logged), ?_⟩
  exact Nat.lt_of_lt_of_le (stage.start_lt_moved more) rest.start_le

end Stage

def Context.allowance (c : Context) : Nat := 4 * c.table.weight + 4

def State.reserve (c : Context) (s : State) : Nat := (c.src.size - s.token.start) * c.allowance

theorem Stage.reserve_add_le (stage : Stage c r) (later : s.token.start < r.token.start) :
    r.reserve c + c.allowance ≤ s.reserve c := by
  have inside := Nat.le_trans stage.start_le_stop (stage.offset ▸ stage.inside)
  unfold State.reserve
  rw [← Nat.succ_mul]
  exact Nat.mul_le_mul_right _ (by omega)

theorem Onward.reserve_le (onward : Onward c s r) : r.reserve c ≤ s.reserve c := by
  have later := onward.start_le
  exact Nat.mul_le_mul_right _ (by omega)

variable {depth : String → Nat} {n : Nat}

/-- Whether a depth of `n` is enough for what needs `load` by itself and may
enter these rules. -/
structure Room (c : Context) (depth : String → Nat) (s : State) (names : List String)
    (load n : Nat) : Prop where
  own : s.reserve c + load ≤ n
  rules : ∀ x ∈ names, s.reserve c + load + depth x ≤ n

namespace Room

variable {names names' : List String} {load load' : Nat}

theorem mono {m : Nat} (room : Room c depth s names load m) (fewer : names' ⊆ names)
    (less : m + load' ≤ n + load) : Room c depth s names' load' n := by
  obtain ⟨own, rules⟩ := room
  refine ⟨by omega, fun x member => ?_⟩
  have rule := rules x (fewer member)
  omega

theorem reserve_le (room : Room c depth s names load (n + 1)) (some : 0 < load) :
    s.reserve c ≤ n := by
  have own := room.own
  omega

theorem still (room : Room c depth s names load n) (still : Still s r) :
    Room c depth r names load n := by
  have same : r.reserve c = s.reserve c := by rw [State.reserve, still.token, State.reserve]
  exact ⟨same ▸ room.own, fun x member => same ▸ room.rules x member⟩

end Room

namespace Outcome

/-- An outcome with a result, unless it is that of an attempt. The token was
taken if it should be. -/
def Lands (c : Context) (trial : Bool) (s : State) (takes : Prop) : Outcome → Prop
  | .done _ r => Onward c s r ∧ (takes → s.token.start < r.token.start)
  | .failed r => trial = true ∧ r.reuse.entries = []
  | .halted _ => False

namespace Lands

variable {o : Outcome} {trial : Bool} {takes takes' : Prop}

theorem mono (lands : o.Lands c trial s takes) (imp : takes' → takes) :
    o.Lands c trial s takes' := by
  cases o with
  | done items r => exact ⟨lands.1, lands.2 ∘ imp⟩
  | failed r => exact lands
  | halted v => exact lands

theorem after (lands : o.Lands c trial s takes) (front : List Item) :
    (o.after front).Lands c trial s takes := by
  cases o with
  | done items r => exact lands
  | failed r => exact lands
  | halted v => exact lands

theorem behind (lands : o.Lands c trial r takes) (onward : Onward c s r)
    (imp : takes' → s.token.start < r.token.start ∨ takes) : o.Lands c trial s takes' := by
  cases o with
  | done items q =>
      refine ⟨onward.trans lands.1, fun should => ?_⟩
      rcases imp should with before | now
      · exact Nat.lt_of_lt_of_le before lands.1.start_le
      · exact Nat.lt_of_le_of_lt onward.start_le (lands.2 now)
  | failed q => exact lands
  | halted v => exact lands

theorem bind {k : List Item → State → Outcome} (lands : o.Lands c trial s takes)
    (next : ∀ items r, Onward c s r → (takes → s.token.start < r.token.start) →
      (k items r).Lands c trial s takes') : (o.bind k).Lands c trial s takes' := by
  cases o with
  | done items r => exact next items r lands.1 lands.2
  | failed r => exact lands
  | halted v => exact lands

end Lands

end Outcome

namespace Task

def names (t : Table) (firm : List String) (led : Bool) : Task → List String
  | .expr e _ | .operand _ e _ _ _ => e.entered t firm led
  | .copies e _ _ _ | .elements e _ _ _ | .statements _ e _ => e.guarded t firm
  | .suffixes _ all _ _ _ => Expr.entersInTails t firm all
  | .operators _ _ _ _ _ _ => []

def load : Task → Nat
  | .expr e _ => 2 * e.weight
  | .copies body min count _ => 1 + (min - count).toNat + 2 * body.weight
  | .elements e _ _ _ | .statements _ e _ | .operand _ e _ _ _ => 1 + 2 * e.weight
  | .suffixes _ all _ _ _ => 1 + 2 * ((all.map Suffix.tail).map Expr.weight).sum
  | .operators _ _ _ _ _ _ => 1

def Suited (c : Context) (firm : List String) (led : Bool) (s : State) : Task → Prop
  | .expr e _ | .operand _ e _ _ _ => led = true → Suits c firm s e
  | .elements e _ _ _ => s.canStart c e = true
  | _ => True

def Takes (c : Context) (firm : List String) (led : Bool) (s : State) : Task → Prop
  | .expr e _ | .operand _ e _ _ _ => led = true ∧ s.canStart c e = true
  | .copies e _ _ _ | .statements _ e _ => s.canStart c e = true
  | .elements e _ _ _ => e.slips c.table firm true = false
  | _ => False

theorem load_pos (task : Task) : 0 < task.load := by
  cases task with
  | expr e => exact Nat.mul_pos (by decide) e.weight_pos
  | _ => simp only [load]; omega

theorem load_le {t : Table} {task : Task} (known : (Job.task task).Known t) :
    task.load ≤ 2 * t.weight := by
  cases task with
  | expr e => exact Nat.mul_le_mul_left 2 known.weight_le
  | copies body min count =>
      have whole := known.weight_le
      rw [Expr.weight_eq, Expr.ownWeight, Expr.inners, List.map_cons, List.sum_cons] at whole
      simp only [load]
      omega
  | elements e | statements _ e | operand _ e | operators _ e =>
      have part := known.weight_lt (List.mem_singleton_self e)
      simp only [load]
      omega
  | suffixes many all =>
      obtain ⟨head, part⟩ := known
      have whole := part.weight_le
      have own := (Expr.suffixed head many all).ownWeight_pos
      rw [Expr.weight_eq, Expr.inners, List.map_cons, List.sum_cons] at whole
      simp only [load]
      omega

end Task

end MqTree.Parser
