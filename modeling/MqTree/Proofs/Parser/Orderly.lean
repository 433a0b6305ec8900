import MqTree.Proofs.Edit.Survive
import MqTree.Proofs.Parser.Described

namespace MqTree

namespace Parser

/-! Whatever statements a parse takes over, the items it makes follow each other
inside the text: also those that do not fit, unless they end behind the text,
which is an error. -/

variable {c : Context} {o : Outline} {s r : State} {items : List Item} {low mid : Int}

structure Orderly (c : Context) (s : State) : Prop extends Faces c s where
  spread : Spread s.prevEnd s.token.start s.pending
  offers : ∀ entry ∈ s.reuse.entries, entry.2.Sound

theorem Advances.orderly (advances : Advances c s r) (inside : s.lexer.offset ≤ c.src.size)
    (pending : s.pending = []) (prevEnd : s.prevEnd = s.lexer.offset)
    (offers : ∀ entry ∈ s.reuse.entries, entry.2.Sound) : Orderly c r := by
  obtain ⟨comments, made, spread⟩ := advances.comments inside
  obtain ⟨kept, reuse, _⟩ := advances.kept
  refine ⟨advances.faces inside fun _ none => ?_, ?_, by rwa [reuse]⟩
  · rw [pending] at none
    contradiction
  · rw [made, pending, kept, prevEnd]
    exact spread

/-- Where the items of what comes next may begin: behind the last token, or with
the token where no comments are left before it. -/
def State.Floor (s : State) (low : Int) : Prop :=
  low ≤ s.prevEnd ∨ s.pending = [] ∧ low ≤ s.token.start

namespace Orderly

theorem initial (c : Context) {reuse : ReuseIndex}
    (offers : ∀ entry ∈ reuse.entries, entry.2.Sound) :
    Orderly c (State.initial c reuse) :=
  (State.initial_advances c reuse).orderly (Nat.zero_le _) rfl rfl offers

theorem moved (orderly : Orderly c s) : Orderly c (s.moved c) :=
  (State.moved_advances orderly.inside).orderly orderly.inside rfl orderly.offset.symm
    orderly.offers

theorem start_le (orderly : Orderly c s) : s.token.start ≤ c.src.size := by
  have ends := orderly.start_le_stop
  have offset := orderly.offset
  have inside := orderly.inside
  omega

theorem prevEnd_le (orderly : Orderly c s) : (s.prevEnd : Int) ≤ s.token.start :=
  orderly.spread.low_le

theorem log (orderly : Orderly c s) (event : Event) : Orderly c (s.log event) := { orderly with }

theorem rewind (orderly : Orderly c s) (offers : ∀ entry ∈ r.reuse.entries, entry.2.Sound) :
    Orderly c (r.rewind s) := { orderly with offers }

theorem flush (orderly : Orderly c s) : Orderly c { s with pending := [] } :=
  { orderly with
    comments := fun _ none => absurd none List.not_mem_nil
    spread := orderly.prevEnd_le }

theorem speculating (orderly : Orderly c s) (trial : Bool) :
    Orderly { c with speculating := trial } s := { orderly with }

theorem consume (orderly : Orderly c s) (floor : s.Floor low) (field : String) {kind : String}
    (proper : kind ≠ missingKind) (named : Bool) :
    Spread low (s.moved c).prevEnd (s.consume c field kind named).1 := by
  have ends := orderly.start_le_stop
  have leaf : Spread s.token.start s.token.stop
      [⟨field, s.token.start, .ofToken kind named s.token⟩] := by
    refine ⟨Int.le_refl _, ⟨proper, Int.natCast_nonneg _⟩, ?_⟩
    show (s.token.start : Int) + ((s.token.stop - s.token.start : Nat) : Int) ≤ s.token.stop
    omega
  rw [State.prevEnd_moved, State.consume_fst]
  rcases floor with behind | ⟨none, here⟩
  · exact (orderly.spread.mono behind (Int.le_refl _)).append leaf
  · rw [none]
    exact leaf.mono here (Int.le_refl _)

theorem consumeAny (orderly : Orderly c s) (floor : s.Floor low) :
    Spread low (s.moved c).prevEnd (s.consumeAny c).1 :=
  orderly.consume floor "" (Token.symbol_of_spells orderly.spells).2.1 _

theorem skipUpTo {e : Expr} {n count : Nat} {skipped : List Item} (orderly : Orderly c s)
    (spread : Spread low s.prevEnd skipped) {all : List Item} {total : Nat}
    (found : skipUpTo c e n count skipped s = (some (all, total), r)) :
    Orderly c r ∧ Spread low r.prevEnd all := by
  induction n generalizing s count skipped with
  | zero => simp [Parser.skipUpTo] at found
  | succ n ih =>
      have more := spread.append (orderly.consumeAny (Or.inl (Int.le_refl _)))
      rw [Parser.skipUpTo] at found
      split at found
      · change (if (s.moved c).canStart c e then _ else _) = _ at found
        split at found
        · obtain ⟨made, rfl⟩ := Prod.mk.inj found
          obtain ⟨rfl, _⟩ := Prod.mk.inj (Option.some.inj made)
          exact ⟨orderly.moved, more⟩
        · exact ih orderly.moved more found
      · simp at found

theorem consumeUntil (stop : State → Bool) (n : Nat) (orderly : Orderly c s) :
    Orderly c (consumeUntil c stop n s).2 ∧
      Spread s.prevEnd (Parser.consumeUntil c stop n s).2.prevEnd
        (Parser.consumeUntil c stop n s).1 := by
  induction n generalizing s with
  | zero => exact ⟨orderly, Int.le_refl _⟩
  | succ n ih =>
      rw [Parser.consumeUntil]
      split
      · exact ⟨orderly, Int.le_refl _⟩
      · obtain ⟨later, spread⟩ := ih orderly.moved
        exact ⟨later, (orderly.consumeAny (Or.inl (Int.le_refl _))).append spread⟩

end Orderly

theorem Spread.close {kind : String} (spread : Spread low s.prevEnd items)
    (proper : kind ≠ missingKind) (field : String) :
    Spread low s.prevEnd [s.finish kind field items] := by
  cases items with
  | nil => exact ⟨spread, ⟨proper, Int.le_refl _⟩, Int.le_of_eq (Int.add_zero _)⟩
  | cons first rest => exact spread.finish (List.cons_ne_nil _ _) proper s field

theorem Spread.closeSuffixes {kind : String} (spread : Spread low s.prevEnd items)
    (proper : kind ≠ missingKind) : Spread low s.prevEnd (closeSuffixes s kind items) := by
  unfold Parser.closeSuffixes
  split
  · exact spread
  · exact spread.close proper ""

theorem Spread.markStatement {high : Int} {before after : State} (spread : Spread low high items) :
    Spread low high (markStatement before after items) := by
  unfold Parser.markStatement
  split
  next it =>
    split
    · refine ⟨spread.1, spread.2.1.asStatement _, ?_⟩
      simpa only [Item.stop, Subtree.length_asStatement] using spread.2.2
    · exact spread
  next => exact spread

theorem Orderly.skipTo {e : Expr} {error : Item} (orderly : Orderly c s)
    (found : skipTo c e s = (some error, r)) :
    Orderly c r ∧ Spread s.prevEnd r.prevEnd [error] := by
  unfold Parser.skipTo at found
  split at found
  next skipped count next result =>
    obtain ⟨made, rfl⟩ := Prod.mk.inj found
    obtain ⟨later, spread⟩ := orderly.skipUpTo (Int.le_refl _) result
    rw [← Option.some.inj made]
    exact ⟨later.log _, spread.close (by decide) ""⟩
  next => simp at found

theorem Orderly.skipTo_none {e : Expr} (orderly : Orderly c s)
    (found : Parser.skipTo c e s = (none, r)) : Orderly c r ∧ r.prevEnd = s.prevEnd := by
  have offers := orderly.offers
  rw [← reuse_skipTo found] at offers
  unfold Parser.skipTo at found
  split at found
  · simp at found
  · obtain ⟨_, rfl⟩ := Prod.mk.inj found
    exact ⟨orderly.rewind offers, rfl⟩

theorem Orderly.skipStatement (orderly : Orderly c s) (floor : s.Floor low) (item : Expr)
    (closers : List String) :
    Orderly c (skipStatement c item closers s).2 ∧
      Spread low (Parser.skipStatement c item closers s).2.prevEnd
        [(Parser.skipStatement c item closers s).1] := by
  obtain ⟨later, spread⟩ := orderly.moved.consumeUntil (resumes c item closers) c.src.size
  have all := (orderly.consumeAny floor).append spread
  exact ⟨later.log _, all.close (by decide) ""⟩

theorem Orderly.behind {sub : Subtree} {reuse : ReuseIndex}
    (pending : s.pending = []) (above : 0 ≤ s.token.start + sub.length)
    (inside : s.token.start + sub.length ≤ c.src.size)
    (offers : ∀ entry ∈ reuse.entries, entry.2.Sound) :
    Orderly c (s.behind c sub reuse) ∧
      ((s.behind c sub reuse).prevEnd : Int) = s.token.start + sub.length := by
  obtain ⟨base, eq, _, offset, _, _, items, stop, index⟩ := State.behind_eq c s sub reuse
  have placed : base.lexer.offset ≤ c.src.size := by
    rw [offset]
    omega
  have advances := State.advance_advances placed
  rw [eq]
  refine ⟨advances.orderly placed (items.trans pending) (stop.trans offset.symm) ?_, ?_⟩
  · rwa [index]
  · rw [advances.kept.1, stop, Int.toNat_of_nonneg above]

theorem Orderly.reuse {field : String} {taken : Item} (orderly : Orderly c s)
    (pending : s.pending = []) (found : reuse? c field s = some (.ok (taken, r))) :
    Orderly c r ∧ Spread s.token.start r.prevEnd [taken] := by
  unfold reuse? at found
  split at found
  · contradiction
  · obtain ⟨⟨sub, reuse⟩, present, made⟩ := Option.map_eq_some_iff.mp found
    obtain ⟨member, fewer⟩ := ReuseIndex.mem_of_take? present
    have sound := orderly.offers _ member
    simp only [Lexer.seek] at made
    split at made
    next range =>
      obtain ⟨rfl, rfl⟩ := Prod.mk.inj (Except.ok.inj made)
      obtain ⟨later, ends⟩ := Orderly.behind pending range.1 range.2
        fun entry inside => orderly.offers entry (fewer inside)
      exact ⟨later, Int.le_refl _, sound, Int.le_of_eq ends.symm⟩
    next => contradiction

def Outcome.Orders (c : Context) (low : Int) : Outcome → Prop
  | .done items r => Orderly c r ∧ Spread low r.prevEnd items
  | .failed r => ∀ entry ∈ r.reuse.entries, entry.2.Sound
  | .halted _ => True

namespace Outcome.Orders

variable {outcome : Outcome}

theorem bind {k : List Item → State → Outcome} (orders : outcome.Orders c mid)
    (next : ∀ items r, Orderly c r → Spread mid r.prevEnd items → (k items r).Orders c low) :
    (outcome.bind k).Orders c low := by
  cases outcome with
  | done items r => exact next items r orders.1 orders.2
  | failed r => exact orders
  | halted v => trivial

theorem after {front : List Item} (orders : outcome.Orders c mid)
    (spread : Spread low mid front) : (outcome.after front).Orders c low :=
  orders.bind fun _ _ orderly later => ⟨orderly, spread.append later⟩

theorem andThen {k : State → Outcome} (orders : outcome.Orders c low)
    (next : ∀ r, Orderly c r → (k r).Orders c r.prevEnd) : (outcome.andThen k).Orders c low :=
  orders.bind fun _ r orderly spread => (next r orderly).after spread

end Outcome.Orders

/-! ### One level of a run -/

namespace Task

def Allowed (t : Table) (o : Outline) (trial : Bool) : Task → Prop
  | .suffixes many all kind _ _ =>
      (∃ head, t.admits o trial (.suffixed head many all) = true) ∧ kind ≠ missingKind
  | task => task.Admitted t o trial

/-- A task may make items from `low` on: behind the last token, or with the token
where that is going to be taken. -/
def From (c : Context) (s : State) (low : Int) : Task → Prop
  | .suffixes _ _ _ built _ => Spread low s.prevEnd built
  | .operators _ _ _ _ left _ => Spread low s.prevEnd left
  | task => low ≤ s.prevEnd ∨ s.Floor low ∧ task.Hot c s

end Task

def AllOrder (o : Outline) (runner : Runner) : Prop :=
  ∀ {c : Context} (task : Task) {s : State} {low : Int}, c.table.Lawful o → Orderly c s →
    task.Allowed c.table o c.speculating → task.From c s low → (runner c task s).Orders c low

section

variable {runner : Runner} (all : AllOrder o runner) (law : c.table.Lawful o)
  (orderly : Orderly c s)

include all law orderly

theorem expr_orders {e : Expr} (admitted : c.table.admits o c.speculating e = true)
    (field : String) (floor : low ≤ s.prevEnd ∨
      s.Floor low ∧ e.leads c.table.nullables = true ∧ s.canStart c e = true) :
    (runner c (.expr e field) s).Orders c low :=
  all (.expr e field) law orderly admitted floor

theorem recover_orders {e : Expr} (admitted : c.table.admits o c.speculating e = true)
    (field : String) (maySkip : Bool) (behind : low ≤ s.prevEnd) :
    (recover runner c e field maySkip s).Orders c low := by
  have placed {q : State} (orderly : Orderly c q) (behind : low ≤ q.prevEnd) :
      (placeholder c e field q).Orders c low := by
    unfold placeholder
    split
    · trivial
    · exact ⟨orderly.log _, behind, trivial, Int.le_of_eq (Int.add_zero _)⟩
  unfold recover
  split
  · exact orderly.offers
  · split
    · split
      next error next found =>
        obtain ⟨later, spread⟩ := orderly.skipTo found
        have rest := expr_orders all law later admitted field (Or.inl (Int.le_refl _))
        exact rest.after (spread.mono behind (Int.le_refl _))
      next next found =>
        obtain ⟨later, same⟩ := orderly.skipTo_none found
        exact placed later (by rwa [same])
    · exact placed orderly behind

theorem terminal_orders {e : Expr} {takes : Bool} {field kind : String} {named : Bool}
    (admitted : c.table.admits o c.speculating e = true) (proper : kind ≠ missingKind)
    (floor : low ≤ s.prevEnd ∨ s.Floor low ∧ takes = true) :
    Outcome.Orders c low
      (if takes then .done (s.consume c field kind named).1 (s.consume c field kind named).2
      else recover runner c e field true s) := by
  split
  · exact ⟨orderly.moved, orderly.consume (floor.elim Or.inl And.left) field proper named⟩
  next other =>
    exact recover_orders all law orderly admitted field true
      (floor.resolve_right fun here => other here.2)

omit orderly in
theorem sequence_orders {es : List Expr} (orderly : Orderly c s)
    (admitted : c.table.admitsAll o c.speculating es = true) (field : String)
    (floor : low ≤ s.prevEnd ∨ s.Floor low ∧ Expr.leadsHead c.table.nullables es = true ∧
      s.sequenceCanStart c es = true) :
    (sequence runner c field es s).Orders c low := by
  induction es generalizing s low with
  | nil => exact ⟨orderly, floor.resolve_right fun here => Bool.noConfusion here.2.1⟩
  | cons e es ih =>
      rw [Table.admitsAll, Bool.and_eq_true] at admitted
      have head := expr_orders all law orderly admitted.1 field
        (floor.imp_right fun here => ⟨here.1, head_starts here.2.1 here.2.2⟩)
      exact head.andThen fun r later => ih later admitted.2 (Or.inl (Int.le_refl _))

omit orderly in
theorem attempt_orders {alts : List Expr} (orderly : Orderly c s) (calm : c.speculating = false)
    (admitted : c.table.admitsTrials o alts = true) (field : String) (behind : low ≤ s.prevEnd) :
    (attempt runner c field alts s).Orders c low := by
  induction alts generalizing s with
  | nil => trivial
  | cons alt rest ih =>
      cases rest with
      | nil =>
          rw [Table.admitsTrials, ← calm] at admitted
          exact expr_orders all law orderly admitted field (Or.inl behind)
      | cons next rest =>
          rw [Table.admitsTrials, Bool.and_eq_true, Bool.and_eq_true] at admitted
          rw [attempt]
          · split
            · have tried := expr_orders (c := { c with speculating := true }) all law
                (orderly.speculating true) admitted.1.2 field (Or.inl behind)
              generalize runner { c with speculating := true } (.expr alt field) s = outcome
                at tried
              cases outcome with
              | done items r => exact ⟨tried.1.speculating c.speculating, tried.2⟩
              | failed stuck =>
                  exact ih (orderly.rewind (r := stuck.log (.backtracked stuck.token)) tried)
                    admitted.2 behind
              | halted v => trivial
            · exact ih orderly admitted.2 behind
          · simp

theorem reference_orders {name : String} (field : String)
    (admitted : c.table.admits o c.speculating (.ref name) = true)
    (floor : low ≤ s.prevEnd ∨ s.Floor low ∧ s.canStart c (.ref name) = true) :
    (reference runner c name field s).Orders c low := by
  unfold reference
  split
  next other =>
    rw [Bool.and_eq_true, Bool.not_eq_true', Bool.not_eq_true'] at other
    refine recover_orders all law orderly admitted field true (floor.resolve_right fun here => ?_)
    rw [here.2] at other
    exact Bool.noConfusion other.2
  next =>
    split
    · trivial
    next rule found =>
      obtain ⟨whole, inner⟩ := admits_body law admitted found
      have body (field : String) := expr_orders all law orderly inner field
        (floor.imp_right fun here => ⟨here.1, body_starts whole found here.2⟩)
      split
      · exact body field
      · simp only [Table.admitsRule, Bool.and_eq_true] at whole
        have proper := whole.1.1.1.1.1.1.1
        exact (body "").bind fun children next later spread =>
          ⟨later, spread.close (isProper_iff.mp proper).2.2.2 field⟩

theorem guarded_orders {e body : Expr} (field : String)
    (admitted : c.table.admits o c.speculating body = true)
    (leads : body.leads c.table.nullables = true)
    (inner : s.canStart c e = true → s.canStart c body = true)
    (floor : low ≤ s.prevEnd ∨ s.Floor low ∧ s.canStart c e = true) :
    Outcome.Orders c low
      (if s.canStart c e then runner c (.expr body field) s
      else recover runner c body field false s) := by
  split
  next starts =>
    exact expr_orders all law orderly admitted field
      (floor.imp_right fun here => ⟨here.1, leads, inner starts⟩)
  next other =>
    exact recover_orders all law orderly admitted field false
      (floor.resolve_right fun here => other here.2)

theorem choice_orders {alts : List Expr} (field : String)
    (admitted : c.table.admits o c.speculating (.choice alts) = true)
    (floor : low ≤ s.prevEnd ∨ s.Floor low ∧ s.canStart c (.choice alts) = true) :
    (expression runner c field (.choice alts) s).Orders c low := by
  have parts := admitted
  simp only [Table.admits, Bool.and_eq_true] at parts
  simp only [expression]
  split
  next alt found =>
    obtain ⟨leads, inner, _⟩ := of_mem_alts parts.1.2 parts.2 (List.mem_of_find?_eq_some found)
    exact expr_orders all law orderly inner field
      (floor.imp_right fun here => ⟨here.1, leads, List.find?_some found⟩)
  next none =>
    refine recover_orders all law orderly admitted field true (floor.resolve_right fun here => ?_)
    have starts := here.2
    rw [State.canStart] at starts
    obtain ⟨alt, member, other⟩ := State.anyCanStart_eq_true.mp starts
    exact absurd other (List.find?_eq_none.mp none alt member)

theorem unary_orders {kind : String} {ops : List String} {operand : Expr} (field : String)
    (admitted : c.table.admits o c.speculating (.unary kind ops operand) = true)
    (floor : low ≤ s.prevEnd ∨ s.Floor low ∧ operand.leads c.table.nullables = true ∧
      operand.plain = true ∧ s.canStart c (.unary kind ops operand) = true) :
    (expression runner c field (.unary kind ops operand) s).Orders c low := by
  have parts := admitted
  simp only [Table.admits, Bool.and_eq_true] at parts
  obtain ⟨⟨⟨_, proper⟩, marks⟩, inner⟩ := parts
  simp only [expression]
  split
  next operator =>
    rw [Bool.and_eq_true, beq_iff_eq] at operator
    have symbol := (isEnd_of_mark operator.1).2
    have sign := orderly.consume (floor.elim Or.inl And.left) "operator"
      (symbol ▸ (Token.symbol_of_spells orderly.spells).2.1 : s.token.lit ≠ missingKind) false
    refine (expr_orders all law orderly.moved admitted "operand"
      (Or.inl (Int.le_refl _))).bind fun more r later spread => ?_
    exact ⟨later, (sign.append spread).close (isProper_iff.mp proper).2.2.2 field⟩
  next other =>
    refine expr_orders all law orderly inner field (floor.imp_right fun here => ?_)
    obtain ⟨first, leads, plain, starts⟩ := here
    exact ⟨first, leads, operand_starts orderly.terminal orderly.spells marks other leads plain
      starts⟩

theorem expression_orders {e : Expr} (field : String)
    (admitted : c.table.admits o c.speculating e = true)
    (floor : low ≤ s.prevEnd ∨
      s.Floor low ∧ e.leads c.table.nullables = true ∧ s.canStart c e = true) :
    (expression runner c field e s).Orders c low := by
  have parts := admitted
  cases e with
  | tok sym words =>
      simp only [Table.admits, Bool.and_eq_true] at parts
      exact terminal_orders all law orderly admitted (isProper_iff.mp parts.2).2.2.2
        (floor.imp_right fun here => ⟨here.1, tok_taken orderly.terminal parts.2 here.2.2⟩)
  | leaf kind sym =>
      simp only [Table.admits, Bool.and_eq_true] at parts
      exact terminal_orders all law orderly admitted (isProper_iff.mp parts.1.2).2.2.2
        (floor.imp_right fun here => ⟨here.1, leaf_taken orderly.terminal parts.2 here.2.2⟩)
  | ref name =>
      exact reference_orders all law orderly field admitted
        (floor.imp_right fun here => ⟨here.1, here.2.2⟩)
  | seq es =>
      simp only [Table.admits, Bool.and_eq_true] at parts
      rw [Expr.leads, State.canStart] at floor
      exact sequence_orders all law orderly parts.2 field floor
  | choice alts =>
      exact choice_orders all law orderly field admitted
        (floor.imp_right fun here => ⟨here.1, here.2.2⟩)
  | ordered alts =>
      simp only [Table.admits, Bool.and_eq_true, Bool.not_eq_true'] at parts
      exact attempt_orders all law orderly parts.1.2 parts.2 field
        (floor.resolve_right fun here => Bool.noConfusion here.2.1)
  | opt body =>
      simp only [Table.admits, Bool.and_eq_true] at parts
      have behind := floor.resolve_right fun here => Bool.noConfusion here.2.1
      simp only [expression]
      split
      · exact expr_orders all law orderly parts.2 field (Or.inl behind)
      · exact ⟨orderly, behind⟩
  | rep body min =>
      have behind := floor.resolve_right fun here => Bool.noConfusion here.2.1
      exact all (.copies body min 0 field) law orderly admitted (Or.inl behind)
  | sepBy elem sep trailing =>
      have behind := floor.resolve_right fun here => Bool.noConfusion here.2.1
      simp only [expression]
      split
      · exact all (.elements elem sep trailing field) law orderly admitted (Or.inl behind)
      · exact ⟨orderly, behind⟩
  | field name body =>
      simp only [Table.admits, Bool.and_eq_true] at parts
      rw [Expr.leads, State.canStart] at floor
      exact expr_orders all law orderly parts.2 name floor
  | immediate body | sameLine body =>
      simp only [Table.admits, Bool.and_eq_true] at parts
      refine guarded_orders all law orderly field parts.2 parts.1.2 (fun starts => ?_)
        (floor.imp_right fun here => ⟨here.1, here.2.2⟩)
      rw [State.canStart, Bool.and_eq_true] at starts
      exact starts.2
  | stmts name item closers =>
      have behind := floor.resolve_right fun here => Bool.noConfusion here.2.1
      exact all (.statements name item closers) law orderly admitted (Or.inl behind)
  | suffixed head many suffixes =>
      simp only [Table.admits, Bool.and_eq_true] at parts
      have front := expr_orders all law orderly parts.1.2 ""
        (floor.imp_right fun here => ⟨here.1, suffixed_enters here.2⟩)
      exact front.bind fun built r later spread =>
        all (.suffixes many suffixes "" built field) law later ⟨⟨head, admitted⟩, by decide⟩ spread
  | binary kind operand ops =>
      exact all (.operand kind operand ops 0 field) law orderly admitted
        (floor.imp_right fun here => ⟨here.1, binary_enters here.2⟩)
  | unary kind ops operand =>
      exact unary_orders all law orderly field admitted
        (floor.imp_right fun here => ⟨here.1, unary_enters here.2⟩)

theorem copies_orders {body : Expr} {min : Int} (count : Nat) (field : String)
    (admitted : c.table.admits o c.speculating (.rep body min) = true) (behind : low ≤ s.prevEnd) :
    (copies runner c body min count field s).Orders c low := by
  have parts := admitted
  simp only [Table.admits, Bool.and_eq_true] at parts
  have rest (r : State) (later : Orderly c r) :=
    all (.copies body min (count + 1) field) law later admitted (Or.inl (Int.le_refl _))
  unfold copies
  split
  · exact (expr_orders all law orderly parts.2 field (Or.inl behind)).andThen rest
  · split
    · exact ⟨orderly, behind⟩
    · exact (recover_orders all law orderly parts.2 field true behind).andThen rest

theorem elements_orders {elem : Expr} {sep : String} {trailing : Bool} (field : String)
    (admitted : c.table.admits o c.speculating (.sepBy elem sep trailing) = true)
    (floor : low ≤ s.prevEnd ∨ s.Floor low ∧ s.canStart c elem = true) :
    (elements runner c elem sep trailing field s).Orders c low := by
  have parts := admitted
  simp only [Table.admits, Bool.and_eq_true] at parts
  have first := expr_orders all law orderly parts.2 field
    (floor.imp_right fun here => ⟨here.1, parts.1.2, here.2⟩)
  refine first.andThen fun r later => ?_
  simp only
  split
  · exact ⟨later, Int.le_refl _⟩
  next other =>
    have symbol : r.token.symbol = sep := by simpa using other
    have separator := later.consume (Or.inl (Int.le_refl _)) ""
      (symbol ▸ (Token.symbol_of_spells later.spells).2.1 : sep ≠ missingKind) false
    refine Outcome.Orders.after ?_ separator
    split
    · exact all (.elements elem sep trailing field) law later.moved admitted
        (Or.inl (Int.le_refl _))
    · split
      · exact ⟨later.moved, Int.le_refl _⟩
      · exact recover_orders all law later.moved parts.2 field false (Int.le_refl _)

theorem statements_orders {field : String} {item : Expr} {closers : List String}
    (admitted : c.table.admits o c.speculating (.stmts field item closers) = true)
    (behind : low ≤ s.prevEnd) : (statements runner c field item closers s).Orders c low := by
  have parts := admitted
  simp only [Table.admits, Bool.and_eq_true, Bool.not_eq_true'] at parts
  obtain ⟨⟨⟨_, calm⟩, statement⟩, inner⟩ := parts
  have leads : item.leads c.table.nullables = true := leads_of_isStatement statement
  have rest (r : State) (later : Orderly c r) :=
    all (.statements field item closers) law later admitted (Or.inl (Int.le_refl _))
  have floor : State.Floor { s with pending := [] } s.token.start := Or.inr ⟨rfl, Int.le_refl _⟩
  unfold statements
  split
  · exact ⟨orderly, behind⟩
  · refine Outcome.Orders.after ?_ (orderly.spread.mono behind (Int.le_refl _))
    split
    · trivial
    next taken next offered =>
      obtain ⟨later, spread⟩ := orderly.flush.reuse rfl offered
      exact (rest next later).after spread
    · split
      next starts =>
        exact (expr_orders all law orderly.flush inner field
          (Or.inr ⟨floor, leads, starts⟩)).bind fun items r later spread =>
            (rest r later).after spread.markStatement
      · split
        · exact orderly.offers
        · obtain ⟨later, spread⟩ := orderly.flush.skipStatement floor item closers
          exact (rest _ later).after spread

theorem suffixes_orders {many : Bool} {tails : List (Suffix Expr)} {kind : String}
    {built : List Item} (field : String)
    (admitted : ∃ head, c.table.admits o c.speculating (.suffixed head many tails) = true)
    (proper : kind ≠ missingKind) (spread : Spread low s.prevEnd built) :
    (suffixes runner c many tails kind built field s).Orders c low := by
  obtain ⟨head, whole⟩ := admitted
  have parts := whole
  simp only [Table.admits, Bool.and_eq_true] at parts
  unfold suffixes
  split
  · exact ⟨orderly, (spread.closeSuffixes proper).withField field⟩
  next x found =>
    obtain ⟨own, _, inner, _, _⟩ := of_mem_tails parts.2 (List.mem_of_find?_eq_some found)
    have named := (isProper_iff.mp own).2.2.2
    have front : Spread low s.prevEnd
        (if kind = x.kind && kind != "" then built
        else withField x.headField (closeSuffixes s kind built)) := by
      split
      · exact spread
      · exact (spread.closeSuffixes proper).withField x.headField
    refine (expr_orders all law orderly inner "" (Or.inl (Int.le_refl _))).bind
      fun more r later next => ?_
    have joined := front.append next
    split
    · exact all _ law later ⟨⟨head, whole⟩, named⟩ joined
    · exact ⟨later, (joined.closeSuffixes named).withField field⟩

theorem operators_orders {kind : String} {operand : Expr} {ops : List (String × UInt8)}
    {least : UInt8} {left : List Item} (field : String)
    (admitted : c.table.admits o c.speculating (.binary kind operand ops) = true)
    (spread : Spread low s.prevEnd left) :
    (operators runner c kind operand ops least left field s).Orders c low := by
  have parts := admitted
  simp only [Table.admits, Bool.and_eq_true] at parts
  unfold operators
  split
  · exact ⟨orderly, spread.withField field⟩
  next power _ =>
    split
    · exact ⟨orderly, spread.withField field⟩
    · have sign := orderly.consume (Or.inl (Int.le_refl _)) "operator"
        (Token.symbol_of_spells orderly.spells).2.1 false
      refine (all (.operand kind operand ops (power + 1) "right") law orderly.moved admitted
        (Or.inl (Int.le_refl _))).bind fun right r later next => ?_
      have joined := ((spread.withField "left").append sign).append next
      exact all (.operators ..) law later admitted
        (joined.close (isProper_iff.mp parts.1.2).2.2.2 "")

end

theorem run_orders (o : Outline) (n : Nat) : AllOrder o (run n) := by
  induction n with
  | zero => exact fun task s low law orderly allowed floor => trivial
  | succ n ih =>
      intro c task s low law orderly allowed floor
      cases task with
      | expr e field => exact expression_orders ih law orderly field allowed floor
      | copies body min count field =>
          exact copies_orders ih law orderly count field allowed
            (floor.resolve_right fun here => here.2)
      | elements elem sep trailing field => exact elements_orders ih law orderly field allowed floor
      | statements field item closers =>
          exact statements_orders ih law orderly allowed (floor.resolve_right fun here => here.2)
      | suffixes many tails kind built field =>
          exact suffixes_orders ih law orderly field allowed.1 allowed.2 floor
      | operand kind operand ops least field =>
          have parts := allowed
          simp only [Task.Allowed, Task.Admitted, Table.admits, Bool.and_eq_true] at parts
          exact (expr_orders ih law orderly parts.2 "" floor).bind fun left r later spread =>
            ih (.operators kind operand ops least left field) law later allowed spread
      | operators kind operand ops least left field =>
          exact operators_orders ih law orderly field allowed floor

theorem build_sound {index : ReuseIndex} {root : Subtree} {events : List Event}
    (law : c.table.Lawful o) (calm : c.speculating = false)
    (offers : ∀ entry ∈ index.entries, entry.2.Sound) (built : build c index = .ok (root, events)) :
    root.kind = sourceFile ∧ root.length = c.src.size ∧ root.Sound := by
  obtain ⟨rule, found, kind, body, admitted⟩ := law.start
  have orderly := Orderly.initial c offers
  have prevEnd : (State.initial c index).prevEnd = 0 := (Stands.initial c index).2.1
  have runs : (run (fuel c) c (.expr rule.body "") (State.initial c index)).Orders c 0 :=
    run_orders o (fuel c) (.expr rule.body "") law orderly (by rw [calm]; exact admitted)
      (Or.inl (by rw [prevEnd]; exact Int.le_refl _))
  rw [build, found] at built
  simp only at built
  split at built
  · contradiction
  · contradiction
  next items last ran =>
    obtain ⟨rfl, _⟩ := Prod.mk.inj (Except.ok.inj built)
    rw [ran] at runs
    obtain ⟨later, spread⟩ := runs
    have children : Spread 0 c.src.size (rootChildren c items last).1 := by
      unfold rootChildren
      split
      · exact (spread.append later.spread).mono (Int.le_refl _) (Int.ofNat_le.mpr later.start_le)
      · obtain ⟨ended, rest⟩ := later.consumeUntil (·.token.isEnd) (c.src.size + 1)
        have all := (spread.append
          (rest.close (show errorKind ≠ missingKind by decide) "")).append ended.spread
        exact all.mono (Int.le_refl _) (Int.ofNat_le.mpr ended.start_le)
    have sound := children.soundFrom 0
    rw [Int.sub_zero, Int.sub_zero] at sound
    refine ⟨kind, rfl, ?_, sound⟩
    rw [kind]
    decide

end Parser

/-! ### Trees -/

structure Tree.WellFormed (t : Tree) : Prop where
  kind : t.root.kind = sourceFile
  length : t.root.length = t.text.size
  sound : t.root.Sound

namespace Parser

variable {p : Parser} {o : Outline} {text : Text} {tree next : Tree} {edits : List Edit}

theorem parse_formed (law : p.table.Lawful o) (parsed : p.parse text = .ok tree) :
    tree.WellFormed ∧ tree.text = text ∧ tree.revision = 0 ∧ tree.edits = [] := by
  cases built : build (p.context text) .empty with
  | error v =>
      rw [parse, parseReported, built] at parsed
      contradiction
  | ok made =>
      obtain ⟨root, events⟩ := made
      rw [parse_eq_of_build built] at parsed
      obtain rfl := Except.ok.inj parsed
      obtain ⟨kind, length, sound⟩ := build_sound law rfl
        (fun entry none => absurd none List.not_mem_nil) built
      exact ⟨⟨kind, length, sound⟩, rfl, rfl, rfl⟩

/-- A tree that comes out of another one is well formed if that is, whatever the
edits were. -/
theorem reparse_formed (law : p.table.Lawful o) (formed : tree.WellFormed)
    (reparsed : p.reparse tree edits text = .ok next) :
    next.WellFormed ∧ next.text = text ∧ next.revision = tree.revision + 1 ∧
      next.edits = tree.edits ++ edits ∧
      Edit.validate (Int64.ofNat tree.text.size) edits (Int64.ofNat text.size) = .ok () := by
  cases valid : Edit.validate (Int64.ofNat tree.text.size) edits (Int64.ofNat text.size) with
  | error e =>
      rw [reparse_eq_of_invalid valid] at reparsed
      contradiction
  | ok _ =>
      cases built : build (p.context text) (.ofEdits tree.root edits) with
      | error v =>
          rw [reparse, reparseReported, valid] at reparsed
          simp [built, Except.mapError, Except.map, bind, Except.bind] at reparsed
      | ok made =>
          obtain ⟨root, events⟩ := made
          rw [reparse_eq_of_build valid built] at reparsed
          obtain rfl := Except.ok.inj reparsed
          obtain ⟨kind, length, sound⟩ := build_sound law rfl (fun entry offered => by
            obtain ⟨n, member, _, same, _⟩ := ReuseIndex.mem_ofEdits offered
            rw [same]
            exact formed.sound.of_mem_walk member) built
          exact ⟨⟨kind, length, sound⟩, rfl, rfl, rfl, rfl⟩

end Parser

end MqTree
