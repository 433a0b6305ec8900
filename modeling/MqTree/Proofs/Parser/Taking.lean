import MqTree.Proofs.Parser.Onward

namespace MqTree.Parser

/-! Expressions of a steady grammar are parsed to their ends: a run goes deeper
only by taking a token, by entering a rule that no rule above it at the same
token can come back to, or by going on to a part of what it is at. -/

variable {c : Context} {s r q : State} {firm : List String} {depth : String → Nat} {n : Nat}

structure Grounds (c : Context) (firm : List String) (depth : String → Nat) : Prop where
  calm : c.speculating = false
  accepted : c.table.Accepted
  steady : c.table.Steady firm
  depths : c.table.Depths firm depth

def Serves (c : Context) (firm : List String) (depth : String → Nat) (n : Nat) (runner : Runner) :
    Prop :=
  ∀ trial led task s, Stage c s → (Job.task task).Known c.table → task.Suited c firm led s →
    Room c depth s (task.names c.table firm led) task.load n →
    (runner { c with speculating := trial } task s).Lands c trial s (task.Takes c firm led s)

theorem State.isEnd_of_symbol_ne {sym : String} (symbol : s.token.symbol = sym)
    (other : sym ≠ endSymbol) : s.token.isEnd = false := by
  apply Bool.eq_false_iff.mpr
  intro ended
  exact other (symbol.symm.trans (State.symbol_of_isEnd ended))

theorem canStart_speculating_eq (s : State) (trial : Bool) :
    s.canStart { c with speculating := trial } = s.canStart c :=
  funext (State.canStart_speculating s trial)

section

variable (grounds : Grounds c firm depth)

include grounds

theorem Grounds.steady_of_part {e : Expr} (part : c.table.Part e) :
    e.steady c.table firm = true := by
  obtain ⟨r, rule, inside⟩ := part
  exact grounds.steady.parts r rule e inside

theorem Grounds.room {names : List String} {load : Nat} (stage : Stage c r)
    (later : s.token.start < r.token.start) (enough : s.reserve c ≤ n)
    (light : load ≤ 2 * c.table.weight) : Room c depth r names load n := by
  have more := stage.reserve_add_le later
  unfold Context.allowance at more
  refine ⟨by omega, fun x _ => ?_⟩
  have limit := grounds.depths.limit x
  omega

variable {runner : Runner} (serves : Serves c firm depth n runner) {trial : Bool}

include serves

theorem lands_behind (onward : Onward c s r) (later : s.token.start < r.token.start)
    (enough : s.reserve c ≤ n) (task : Task) (known : (Job.task task).Known c.table)
    (suited : task.Suited c firm false r) {takes : Prop} :
    (runner { c with speculating := trial } task r).Lands c trial s takes := by
  have room : Room c depth r (task.names c.table firm false) task.load n :=
    grounds.room onward.toStage later enough (Task.load_le known)
  exact (serves trial false task r onward.toStage known suited room).behind onward
    fun _ => Or.inl later

omit grounds in
theorem guarded_lands (stage : Stage c s) {e : Expr} (part : c.table.Part e)
    (starts : s.canStart c e = true)
    (room : Room c depth s (e.guarded c.table firm) (2 * e.weight) n) (field : String) :
    (runner { c with speculating := trial } (.expr e field) s).Lands c trial s
      (e.slips c.table firm true = false) := by
  have lands := serves trial (!e.slips c.table firm true) (.expr e field) s stage part
    (fun led => ⟨by simpa using led, Or.inl starts⟩) room
  exact lands.mono fun holds => ⟨by rw [holds]; rfl, starts⟩

/-! ### Recovery -/

theorem recover_lands (stage : Stage c s) {e : Expr} (part : c.table.Part e)
    (required : c.table.nullable e = false) (enough : s.reserve c ≤ n) (field : String)
    (maySkip : Bool) :
    (recover runner { c with speculating := trial } e field maySkip s).Lands c trial s False := by
  have placed {q : State} (onward : Onward c s q) :
      (placeholder c e field q).Lands c trial s False := by
    obtain ⟨label, described⟩ := Option.isSome_iff_exists.mp
      (Table.describe?_isSome grounds.accepted grounds.steady part required)
    rw [placeholder, described]
    exact ⟨onward.trans (onward.toStage.returns (.log q _)), False.elim⟩
  cases trial with
  | true => exact ⟨rfl, stage.fresh⟩
  | false =>
      have untried : { c with speculating := false } = c := by rw [← grounds.calm]
      rw [untried]
      unfold recover
      rw [if_neg (by rw [grounds.calm]; exact Bool.false_ne_true)]
      split
      · split
        next error next found =>
          have later := stage.start_lt_skipTo found
          have inner : (runner { c with speculating := false } (.expr e field) next).Lands c false s
              False :=
            lands_behind grounds serves (stage.skipTo found) later enough (.expr e field) part
              (absurd · Bool.false_ne_true)
          rw [untried] at inner
          exact inner.after [error]
        next next found =>
          unfold skipTo at found
          split at found
          · simp at found
          next last result =>
            have kept := @reuse_skipUpTo c s e c.window 0 []
            rw [result] at kept
            rw [← (Prod.mk.inj found).2]
            exact placed (stage.returns (.rewind kept))
      · exact placed stage.refl

theorem sequence_lands {es : List Expr} (stage : Stage c s) (parts : ∀ e ∈ es, c.table.Part e)
    (led : Bool) (suits : led = true → Suits c firm s (.seq es)) (load : Nat)
    (light : ∀ e ∈ es, 2 * e.weight ≤ load) (small : load ≤ 2 * c.table.weight)
    (room : Room c depth s ((Expr.seq es).entered c.table firm led) load n)
    (field : String) :
    (sequence runner { c with speculating := trial } field es s).Lands c trial s
      (led = true ∧ s.canStart c (.seq es) = true) := by
  induction es generalizing s led with
  | nil =>
      refine ⟨stage.refl, fun starts => ?_⟩
      simp [State.canStart, State.sequenceCanStart] at starts
  | cons e es ih =>
      obtain ⟨here, others⟩ := List.forall_mem_cons.mp parts
      obtain ⟨light', lights⟩ := List.forall_mem_cons.mp light
      have first := serves trial led (.expr e field) s stage here
        (fun isLed => (suits isLed).cons.1) (room.mono (by
          cases led
          · exact List.subset_append_left ..
          · exact List.subset_append_left ..) (by simpa [Task.load] using light'))
      refine first.bind fun items r onward takes => Outcome.Lands.after ?_ items
      by_cases later : s.token.start < r.token.start
      · have enough : s.reserve c ≤ n := Nat.le_trans (Nat.le_add_right _ _) room.own
        exact (ih onward.toStage others false (absurd · Bool.false_ne_true) lights
          (grounds.room onward.toStage later enough small)).behind onward fun _ => Or.inl later
      · have still := onward.still.resolve_right later
        cases led with
        | false =>
            refine (ih onward.toStage others false (absurd · Bool.false_ne_true) lights ?_).behind
              onward (absurd ·.1 Bool.false_ne_true)
            exact (room.mono (List.subset_append_right ..) (Nat.le_refl _)).still still
        | true =>
            have other : s.canStart c e = false := by
              apply Bool.eq_false_iff.mpr
              exact fun starts => later (takes ⟨rfl, starts⟩)
            obtain ⟨rest, empty, same⟩ := (suits rfl).cons.2 other
            have fewer : (Expr.seq es).leaders c.table.nullables ⊆
                (Expr.seq (e :: es)).leaders c.table.nullables := by
              rw [Expr.leaders, Expr.leaders, Expr.leadersOfSeq]
              rw [Table.nullable] at empty
              rw [if_pos empty]
              exact List.subset_append_right ..
            refine (ih onward.toStage others true (fun _ => rest.still still) lights
              ((room.mono fewer (Nat.le_refl _)).still still)).behind onward ?_
            rintro ⟨_, starts⟩
            exact Or.inr ⟨rfl, by rw [still.canStart, ← same, starts]⟩

omit grounds in
theorem attempt_lands {alts : List Expr} (stage : Stage c s) (some : alts ≠ [])
    (parts : ∀ e ∈ alts, c.table.Part e) {led : Bool}
    (suits : led = true → Suits c firm s (.ordered alts)) (load : Nat)
    (light : ∀ e ∈ alts, 2 * e.weight ≤ load)
    (room : Room c depth s ((Expr.ordered alts).entered c.table firm led) load n)
    (field : String) :
    (attempt runner { c with speculating := trial } field alts s).Lands c trial s
      (led = true ∧ s.canStart c (.ordered alts) = true) := by
  induction alts generalizing s with
  | nil => contradiction
  | cons alt rest ih =>
      obtain ⟨here, others⟩ := List.forall_mem_cons.mp parts
      obtain ⟨light', lights⟩ := List.forall_mem_cons.mp light
      cases rest with
      | nil =>
          have single : s.canStart c (.ordered [alt]) = s.canStart c alt := by
            rw [State.canStart, State.anyCanStart, State.anyCanStart, Bool.or_false]
          have inner (isLed : led = true) : Suits c firm s alt := by
            obtain ⟨holds, fits⟩ := suits isLed
            rw [single, Table.nullable, Expr.nullable, Expr.anyNullable_eq, List.any_cons,
              List.any_nil, Bool.or_false] at fits
            rw [Expr.slips] at holds
            exact ⟨alt.slips_heeded holds, fits⟩
          rw [attempt, single]
          refine serves trial led (.expr alt field) s stage here inner (room.mono ?_ ?_)
          · cases led with
            | true =>
                simp only [Expr.entered, if_true, Expr.leaders, Expr.leadersOfAlts, List.append_nil,
                  Task.names]
                exact List.Subset.refl _
            | false => exact List.Subset.refl _
          · exact Nat.add_le_add_left light' n
      | cons next rest =>
          have own : alt.guarded c.table firm ⊆
              (Expr.ordered (alt :: next :: rest)).entered c.table firm led := by
            cases led with
            | true =>
                rw [Expr.guarded, (suits rfl).later.1]
                exact List.subset_append_left ..
            | false =>
                simp only [Expr.entered, Bool.false_eq_true, if_false, Expr.enters,
                  Expr.entersInTrials, ← Expr.guarded_eq]
                exact List.subset_append_left ..
          have fewer : (Expr.ordered (next :: rest)).entered c.table firm led ⊆
              (Expr.ordered (alt :: next :: rest)).entered c.table firm led := by
            cases led <;> exact List.subset_append_right ..
          have later {q : State} (onward : Onward c s q) (still : Still s q) :
              (attempt runner { c with speculating := trial } field (next :: rest) q).Lands c trial
                s (led = true ∧ s.canStart c (.ordered (alt :: next :: rest)) = true) := by
            refine (ih onward.toStage (List.cons_ne_nil next rest) others
              (fun isLed => (suits isLed).later.2.1.still still) lights
              ((room.mono fewer (Nat.le_refl _)).still still)).behind onward ?_
            rintro ⟨isLed, starts⟩
            exact Or.inr ⟨isLed, (still.canStart _).trans ((suits isLed).later.2.2 starts)⟩
          rw [attempt]
          · split
            next starts =>
              rw [State.canStart_speculating] at starts
              have tried : (runner { c with speculating := true } (.expr alt field) s).Lands c true
                  s (alt.slips c.table firm true = false) :=
                guarded_lands serves stage here starts
                  (room.mono own (Nat.add_le_add_left light' n)) field
              split
              next stuck failed =>
                rw [failed] at tried
                have same : stuck.reuse = s.reuse :=
                  congrArg ReuseIndex.mk (tried.2.trans stage.fresh.symm)
                exact later (stage.returns (.rewind same)) ⟨rfl, rfl, rfl⟩
              next outcome went =>
                generalize runner { c with speculating := true } (.expr alt field) s = outcome
                  at tried went ⊢
                cases outcome with
                | done items r => exact ⟨tried.1, fun takes => tried.2 (suits takes.1).later.1⟩
                | failed stuck => exact absurd rfl (went stuck)
                | halted v => exact tried.elim
            next => exact later stage.refl ⟨rfl, rfl, rfl⟩
          · exact List.cons_ne_nil next rest

omit serves in
/-- A rule is entered at the expense of its depth. -/
theorem Grounds.body_room {name : String} {rule : Rule} {load : Nat}
    (found : c.table.rule? name = some rule) (room : Room c depth s [name] load (n + 1))
    (some : 0 < load) :
    Room c depth s (rule.body.entered c.table firm (firm.contains name))
      (2 * rule.body.weight) n := by
  have whole := room.rules name (List.mem_singleton_self name)
  have body := grounds.depths.body found
  refine ⟨by omega, fun x member => ?_⟩
  have inner := grounds.depths.inner found x member
  omega

omit serves in
theorem Grounds.body_holds {name : String} {rule : Rule} (found : c.table.rule? name = some rule)
    (holds : firm.contains name = true) : rule.body.slips c.table firm false = false := by
  obtain ⟨member, named⟩ := Table.rule?_eq_some found
  refine grounds.steady.takes rule member ?_
  rw [named]
  exact List.contains_iff_mem.mp holds

omit serves in
theorem Grounds.body_among {name : String} {rule : Rule} (found : c.table.rule? name = some rule)
    (starts : s.canStart c (.ref name) = true) : s.among (c.table.first rule.body) = true := by
  have among := State.among_of_canStart _ starts
  rwa [Table.first_ref, grounds.accepted.ranked.first found] at among

theorem body_lands (stage : Stage c s) {name : String} {rule : Rule}
    (found : c.table.rule? name = some rule)
    (fits : s.canStart c (.ref name) = true ∨ c.table.nullable (.ref name) = true)
    {load : Nat} (room : Room c depth s [name] load (n + 1)) (some : 0 < load) (field : String) :
    (runner { c with speculating := trial } (.expr rule.body field) s).Lands c trial s
      (firm.contains name = true ∧ s.canStart c (.ref name) = true) := by
  have lands := serves trial (firm.contains name) (.expr rule.body field) s stage
    (Table.part_body found) (fun holds => .of_first (grounds.body_holds found holds)
      (fits.imp (grounds.body_among found) (grounds.accepted.supported found)))
    (grounds.body_room found room some)
  refine lands.mono fun starts => ⟨starts.1, ?_⟩
  exact State.canStart_of_first rule.body (grounds.body_holds found starts.1)
    (grounds.body_among found starts.2)

theorem reference_lands (stage : Stage c s) {name : String} (part : c.table.Part (.ref name))
    {led : Bool} (suits : led = true → Suits c firm s (.ref name)) {load : Nat}
    (room : Room c depth s [name] load (n + 1)) (some : 0 < load) (field : String) :
    (reference runner { c with speculating := trial } name field s).Lands c trial s
      (led = true ∧ s.canStart c (.ref name) = true) := by
  unfold reference
  rw [State.canStart_speculating]
  split
  next other =>
    rw [Bool.and_eq_true, Bool.not_eq_true', Bool.not_eq_true'] at other
    refine (recover_lands grounds serves stage part other.1 (room.reserve_le some) field
      true).mono ?_
    rintro ⟨_, starts⟩
    exact absurd (starts.symm.trans other.2) (by decide)
  next entered =>
    have fits : s.canStart c (.ref name) = true ∨ c.table.nullable (.ref name) = true := by
      rw [Bool.and_eq_true, Bool.not_eq_true', Bool.not_eq_true', not_and_or, Bool.not_eq_false,
        Bool.not_eq_false] at entered
      exact entered.symm
    have takes : led = true ∧ s.canStart c (.ref name) = true →
        firm.contains name = true ∧ s.canStart c (.ref name) = true := by
      rintro ⟨isLed, starts⟩
      have holds := (suits isLed).holds
      simp only [Expr.slips, Bool.not_eq_false'] at holds
      exact ⟨holds, starts⟩
    split
    next missing =>
      have resolved := grounds.accepted.resolved name part
      rw [missing] at resolved
      contradiction
    next rule found =>
      have body (field : String) :
          (runner { c with speculating := trial } (.expr rule.body field) s).Lands c trial s
            (led = true ∧ s.canStart c (.ref name) = true) :=
        (body_lands grounds serves stage found fits room some field).mono takes
      split
      · exact body field
      · exact (body "").bind fun children r onward later => ⟨onward, later⟩

omit grounds serves in
theorem Stage.starts (stage : Stage c s) {set : TermSet} (among : s.among set = true) :
    c.table.Starts set s.token.symbol := by
  rw [State.among, stage.terminal] at among
  cases id : c.table.termId? s.token.symbol with
  | none => simp [id] at among
  | some n =>
      rw [id] at among
      exact ⟨n, id, by simpa [TermSet.has] using among⟩

omit grounds serves in
theorem Stage.symbol (stage : Stage c s) {sym : String}
    (among : s.among (c.table.terminal sym) = true) : s.token.symbol = sym :=
  State.symbol_of_among stage.terminal among

theorem tok_lands (stage : Stage c s) {sym : String} {words : List String}
    (part : c.table.Part (.tok sym words)) {led : Bool}
    (suits : led = true → Suits c firm s (.tok sym words)) (enough : s.reserve c ≤ n)
    (field : String) :
    (expression runner { c with speculating := trial } field (.tok sym words) s).Lands c trial s
      (led = true ∧ s.canStart c (.tok sym words) = true) := by
  simp only [expression]
  split
  next here =>
    rw [Bool.and_eq_true, Bool.and_eq_true, Bool.not_eq_true'] at here
    rw [State.consume_snd, State.moved_speculating]
    exact ⟨stage.take here.1.1, fun _ => stage.start_lt_moved here.1.1⟩
  next other =>
    refine (recover_lands grounds serves stage part rfl enough field true).mono ?_
    rintro ⟨isLed, starts⟩
    have holds := (suits isLed).holds
    rw [Expr.slips, Bool.or_eq_false_iff, beq_eq_false_iff_ne] at holds
    rw [State.canStart, Bool.and_eq_true] at starts
    have symbol := stage.symbol starts.1
    rw [State.isEnd_of_symbol_ne symbol holds.1, symbol, beq_self_eq_true] at other
    exact other starts.2

theorem leaf_lands (stage : Stage c s) {kind sym : String} (part : c.table.Part (.leaf kind sym))
    {led : Bool} (suits : led = true → Suits c firm s (.leaf kind sym)) (enough : s.reserve c ≤ n)
    (field : String) :
    (expression runner { c with speculating := trial } field (.leaf kind sym) s).Lands c trial s
      (led = true ∧ s.canStart c (.leaf kind sym) = true) := by
  simp only [expression]
  split
  next here =>
    rw [Bool.and_eq_true, Bool.not_eq_true'] at here
    rw [State.consume_snd, State.moved_speculating]
    exact ⟨stage.take here.1, fun _ => stage.start_lt_moved here.1⟩
  next other =>
    refine (recover_lands grounds serves stage part rfl enough field true).mono ?_
    rintro ⟨isLed, starts⟩
    have holds := (suits isLed).holds
    simp only [Expr.slips, beq_eq_false_iff_ne] at holds
    have symbol := stage.symbol (State.among_of_canStart _ starts)
    rw [State.isEnd_of_symbol_ne symbol holds, symbol, beq_self_eq_true] at other
    exact other rfl

theorem choice_lands (stage : Stage c s) {alts : List Expr} (part : c.table.Part (.choice alts))
    {led : Bool} (suits : led = true → Suits c firm s (.choice alts))
    (room : Room c depth s ((Expr.choice alts).entered c.table firm led)
      (2 * (Expr.choice alts).weight) (n + 1)) (field : String) :
    (expression runner { c with speculating := trial } field (.choice alts) s).Lands c trial s
      (led = true ∧ s.canStart c (.choice alts) = true) := by
  have own := (Expr.choice alts).weight_pos
  have holds (isLed : led = true) {alt : Expr} (member : alt ∈ alts) :
      alt.slips c.table firm true = false := by
    have all := (suits isLed).holds
    rw [Expr.slips, Expr.slipsInAlts_eq, List.any_eq_false] at all
    exact Bool.eq_false_iff.mpr (all alt member)
  simp only [expression, canStart_speculating_eq]
  split
  next alt found =>
    have member := List.mem_of_find?_eq_some found
    have less := Expr.weight_lt_of_mem_inners (e := .choice alts) member
    refine (guarded_lands serves stage (part.inner member) (List.find?_some found)
      (room.mono ?_ (by omega)) field).mono fun starts => holds starts.1 member
    cases led with
    | true =>
        rw [Expr.guarded, holds rfl member]
        simp only [Bool.not_false, Expr.entered, if_true, Expr.leaders, Expr.leadersOfAlts_eq]
        exact fun x inside => List.mem_flatMap.mpr ⟨alt, member, inside⟩
    | false =>
        simp only [Expr.entered, Bool.false_eq_true, if_false, Expr.enters, Expr.entersInAlts_eq]
        exact fun x inside => List.mem_flatMap.mpr ⟨alt, member, inside⟩
  next none =>
    have required : c.table.nullable (.choice alts) = false := by
      rw [Table.nullable, Expr.nullable, Expr.anyNullable_eq, List.any_eq_false]
      exact fun alt member => Bool.eq_false_iff.mp ((grounds.accepted.checks part).1 alt member)
    refine (recover_lands grounds serves stage part required (room.reserve_le (by omega)) field
      true).mono ?_
    rintro ⟨_, starts⟩
    rw [State.canStart] at starts
    obtain ⟨alt, member, other⟩ := State.anyCanStart_eq_true.mp starts
    exact List.find?_eq_none.mp none alt member other

omit grounds in
theorem opt_lands (stage : Stage c s) {body : Expr} (part : c.table.Part (.opt body)) {led : Bool}
    (suits : led = true → Suits c firm s (.opt body))
    (room : Room c depth s ((Expr.opt body).entered c.table firm led)
      (2 * (Expr.opt body).weight) (n + 1)) (field : String) :
    (expression runner { c with speculating := trial } field (.opt body) s).Lands c trial s
      (led = true ∧ s.canStart c (.opt body) = true) := by
  have spares : (Expr.opt body).Spares body := .opt
  have spared (isLed : led = true) := (suits isLed).spared spares
  have fewer := spares.guarded_subset fun isLed => (spared isLed).1
  have light : body.weight < (Expr.opt body).weight :=
    Expr.weight_lt_of_mem_inners (List.mem_singleton_self body)
  simp only [expression, canStart_speculating_eq]
  split
  next starts =>
    exact (guarded_lands serves stage (part.only rfl) starts
      (room.mono fewer (by omega)) field).mono fun starts => (spared starts.1).1
  next other => exact ⟨stage.refl, fun starts => absurd ((spared starts.1).2 starts.2) other⟩

omit grounds in
theorem sepBy_lands (stage : Stage c s) {elem : Expr} {sep : String} {trailing : Bool}
    (part : c.table.Part (.sepBy elem sep trailing)) {led : Bool}
    (suits : led = true → Suits c firm s (.sepBy elem sep trailing))
    (room : Room c depth s ((Expr.sepBy elem sep trailing).entered c.table firm led)
      (2 * (Expr.sepBy elem sep trailing).weight) (n + 1)) (field : String) :
    (expression runner { c with speculating := trial } field (.sepBy elem sep trailing) s).Lands c
      trial s (led = true ∧ s.canStart c (.sepBy elem sep trailing) = true) := by
  have spares : (Expr.sepBy elem sep trailing).Spares elem := .sepBy
  have spared (isLed : led = true) := (suits isLed).spared spares
  have fewer := spares.guarded_subset fun isLed => (spared isLed).1
  have light : elem.weight < (Expr.sepBy elem sep trailing).weight :=
    Expr.weight_lt_of_mem_inners (List.mem_singleton_self elem)
  simp only [expression, canStart_speculating_eq]
  split
  next starts =>
    have lands := serves trial led (.elements elem sep trailing field) s stage part starts
      (room.mono fewer (by simp only [Task.load]; omega))
    exact lands.mono fun starts => (spared starts.1).1
  next other => exact ⟨stage.refl, fun starts => absurd ((spared starts.1).2 starts.2) other⟩

/-- A body with a guard: what it may not start on is left, with a placeholder. -/
theorem guard_lands (stage : Stage c s) {e body : Expr}
    (guard : e = .immediate body ∨ e = .sameLine body) (part : c.table.Part e) {led : Bool}
    (suits : led = true → Suits c firm s e)
    (room : Room c depth s (e.entered c.table firm led) (2 * e.weight) (n + 1)) (field : String) :
    (if s.canStart c e then runner { c with speculating := trial } (.expr body field) s
      else recover runner { c with speculating := trial } body field false s).Lands c trial s
      (led = true ∧ s.canStart c e = true) := by
  have member : body ∈ e.inners := by
    rcases guard with rfl | rfl <;> exact List.mem_singleton_self body
  have required : c.table.nullable body = false := by
    rcases guard with rfl | rfl <;> exact grounds.accepted.checks part
  have slips (isLed : led = true) : body.slips c.table firm true = false := by
    have holds := (suits isLed).holds
    rcases guard with rfl | rfl <;>
      simpa only [Expr.slips, Bool.not_true, Bool.false_or] using holds
  have inner (starts : s.canStart c e = true) : s.canStart c body = true := by
    rcases guard with rfl | rfl <;> exact (Bool.and_eq_true_iff.mp starts).2
  have fewer : body.guarded c.table firm ⊆ e.entered c.table firm led := by
    rcases guard with rfl | rfl <;>
      exact Expr.guarded_subset (by rw [Expr.leaders]) (by rw [Expr.enters, Expr.guarded_eq]) slips
  have light := Expr.weight_lt_of_mem_inners member
  split
  next starts =>
    exact (guarded_lands serves stage (part.inner member) (inner starts)
      (room.mono fewer (by omega)) field).mono fun starts => slips starts.1
  next other =>
    refine (recover_lands grounds serves stage (part.inner member) required
      (room.reserve_le (by omega)) field false).mono ?_
    exact fun starts => other starts.2

theorem suffixed_lands (stage : Stage c s) {head : Expr} {many : Bool}
    {suffixes : List (Suffix Expr)} (part : c.table.Part (.suffixed head many suffixes))
    {led : Bool} (suits : led = true → Suits c firm s (.suffixed head many suffixes))
    (room : Room c depth s ((Expr.suffixed head many suffixes).entered c.table firm led)
      (2 * (Expr.suffixed head many suffixes).weight) (n + 1)) (field : String) :
    (expression runner { c with speculating := trial } field (.suffixed head many suffixes) s).Lands
      c trial s (led = true ∧ s.canStart c (.suffixed head many suffixes) = true) := by
  have weight := (Expr.suffixed head many suffixes).weight_eq
  have own := (Expr.suffixed head many suffixes).ownWeight_pos
  rw [Expr.inners, List.map_cons, List.sum_cons] at weight
  have holds (isLed : led = true) : head.slips c.table firm false = false ∧
      (c.table.nullable head = true → suffixes = []) := by
    have all := (suits isLed).holds
    rw [Expr.slips, Bool.or_eq_false_iff, Bool.and_eq_false_imp, Bool.not_eq_false',
      List.isEmpty_iff] at all
    exact all
  have first := serves trial led (.expr head "") s stage part.head
    (fun isLed => .of_first (holds isLed).1
      ((suits isLed).fits.imp_left (State.among_of_canStart (.suffixed head many suffixes))))
    (room.mono (by
      cases led
      · exact List.subset_append_left ..
      · simp only [Task.names, Expr.entered, if_true, Expr.leaders]
        exact List.Subset.refl _) (by simp only [Task.load]; omega))
  simp only [expression]
  refine first.bind fun built r onward takes => ?_
  by_cases later : s.token.start < r.token.start
  · exact lands_behind grounds serves onward later (room.reserve_le (by omega))
      (.suffixes many suffixes "" built field) ⟨head, part⟩ trivial
  · -- The head was empty, and so nothing is left that it could have been followed by.
    have still := onward.still.resolve_right later
    have missed (isLed : led = true) : s.canStart c head = false := by
      apply Bool.eq_false_iff.mpr
      exact fun starts => later (takes ⟨isLed, starts⟩)
    have starts (isLed : led = true) : s.canStart c (.suffixed head many suffixes) = false := by
      apply Bool.eq_false_iff.mpr
      intro starts
      have begins : s.canStart c head = true :=
        State.canStart_body (e := .suffixed head many suffixes) (holds isLed).1 rfl starts
      exact absurd (begins.symm.trans (missed isLed)) (by decide)
    have fewer : Expr.entersInTails c.table firm suffixes ⊆
        (Expr.suffixed head many suffixes).entered c.table firm led := by
      cases led with
      | false => exact List.subset_append_right ..
      | true =>
          have empty := (suits rfl).fits.resolve_left (Bool.eq_false_iff.mp (starts rfl))
          rw [(holds rfl).2 empty]
          exact List.nil_subset _
    refine (serves trial led (.suffixes many suffixes "" built field) r onward.toStage ⟨head, part⟩
      trivial ((room.mono fewer ?_).still still)).behind onward ?_
    · simp only [Task.load]
      omega
    · rintro ⟨isLed, other⟩
      exact absurd (other.symm.trans (starts isLed)) (by decide)

theorem unary_lands (stage : Stage c s) {kind : String} {ops : List String} {operand : Expr}
    (part : c.table.Part (.unary kind ops operand)) {led : Bool}
    (suits : led = true → Suits c firm s (.unary kind ops operand))
    (room : Room c depth s ((Expr.unary kind ops operand).entered c.table firm led)
      (2 * (Expr.unary kind ops operand).weight) (n + 1)) (field : String) :
    (expression runner { c with speculating := trial } field (.unary kind ops operand) s).Lands c
      trial s (led = true ∧ s.canStart c (.unary kind ops operand) = true) := by
  have light : operand.weight < (Expr.unary kind ops operand).weight :=
    Expr.weight_lt_of_mem_inners (List.mem_singleton_self operand)
  simp only [expression]
  split
  next operator =>
    rw [Bool.and_eq_true, beq_iff_eq] at operator
    have more := (isEnd_of_mark operator.1).1
    have later := stage.start_lt_moved more
    rw [State.consume_snd, State.moved_speculating]
    have rest : (runner { c with speculating := trial } (.expr (.unary kind ops operand) "operand")
        (s.moved c)).Lands c trial s True :=
      lands_behind grounds serves (stage.take more) later (room.reserve_le (by omega))
        (.expr (.unary kind ops operand) "operand") part (absurd · Bool.false_ne_true)
    exact rest.bind fun items r onward later => ⟨onward, fun _ => later trivial⟩
  next other =>
    have holds (isLed : led = true) : ops.all isMark = true ∧
        operand.slips c.table firm false = false := by
      have all := (suits isLed).holds
      rw [Expr.slips, Bool.or_eq_false_iff, Bool.not_eq_false'] at all
      exact all
    have starts (isLed : led = true) (starts : s.canStart c (.unary kind ops operand) = true) :
        s.among (c.table.first operand) = true := by
      have among := State.among_of_canStart _ starts
      rw [Table.first_unary, State.among_foldr, Bool.or_eq_true] at among
      refine among.resolve_left fun operator => ?_
      obtain ⟨op, member, among⟩ := List.any_eq_true.mp operator
      have symbol := stage.symbol among
      have mark : isMark s.token.symbol = true :=
        symbol ▸ List.all_eq_true.mp (holds isLed).1 op member
      obtain ⟨punctuation, lit⟩ := Token.mark_of_spells stage.spells mark
      refine absurd ?_ other
      rw [punctuation, lit, symbol, List.contains_iff_mem.mpr member]
      rfl
    have lands := serves trial led (.expr operand field) s stage (part.only rfl)
      (fun isLed => .of_first (holds isLed).2 ((suits isLed).fits.imp_left (starts isLed)))
      (room.mono (by cases led <;> exact List.Subset.refl _) (by simp only [Task.load]; omega))
    refine lands.mono fun begins => ⟨begins.1, ?_⟩
    exact State.canStart_of_first operand (holds begins.1).2 (starts begins.1 begins.2)

omit grounds in
theorem field_lands (stage : Stage c s) {name : String} {body : Expr}
    (part : c.table.Part (.field name body)) {led : Bool}
    (suits : led = true → Suits c firm s (.field name body))
    (room : Room c depth s ((Expr.field name body).entered c.table firm led)
      (2 * (Expr.field name body).weight) (n + 1)) (field : String) :
    (expression runner { c with speculating := trial } field (.field name body) s).Lands c trial s
      (led = true ∧ s.canStart c (.field name body) = true) := by
  have less : body.weight < (Expr.field name body).weight :=
    Expr.weight_lt_of_mem_inners (List.mem_singleton_self body)
  have inner (isLed : led = true) : Suits c firm s body := by
    obtain ⟨holds, fits⟩ := suits isLed
    rw [Expr.slips] at holds
    rw [State.canStart] at fits
    exact ⟨holds, fits⟩
  refine (serves trial led (.expr body name) s stage (part.only rfl) inner (room.mono ?_ ?_)).mono ?_
  · cases led
    all_goals
      simp only [Task.names, Expr.entered, Expr.leaders, Expr.enters]
      exact List.Subset.refl _
  · simp only [Task.load]
    omega
  · rintro ⟨isLed, starts⟩
    rw [State.canStart] at starts
    exact ⟨isLed, starts⟩

omit grounds in
theorem binary_lands (stage : Stage c s) {kind : String} {operand : Expr}
    {ops : List (String × UInt8)} (part : c.table.Part (.binary kind operand ops)) {led : Bool}
    (suits : led = true → Suits c firm s (.binary kind operand ops))
    (room : Room c depth s ((Expr.binary kind operand ops).entered c.table firm led)
      (2 * (Expr.binary kind operand ops).weight) (n + 1)) (field : String) :
    (expression runner { c with speculating := trial } field (.binary kind operand ops) s).Lands c
      trial s (led = true ∧ s.canStart c (.binary kind operand ops) = true) := by
  have less : operand.weight < (Expr.binary kind operand ops).weight :=
    Expr.weight_lt_of_mem_inners (List.mem_singleton_self operand)
  have holds (isLed : led = true) : operand.slips c.table firm false = false :=
    (suits isLed).body (by rw [Expr.slips])
  have inner (isLed : led = true) : Suits c firm s operand :=
    .of_first (holds isLed) ((suits isLed).fits.imp_left
      (State.among_of_canStart (.binary kind operand ops)))
  refine (serves trial led (.operand kind operand ops 0 field) s stage part inner
    (room.mono ?_ ?_)).mono fun starts => ⟨starts.1, ?_⟩
  · cases led
    all_goals
      simp only [Task.names, Expr.entered, Expr.leaders, Expr.enters]
      exact List.Subset.refl _
  · simp only [Task.load]
    omega
  · exact State.canStart_body (e := .binary kind operand ops) (holds starts.1) rfl starts.2

/-! ### Expressions -/

theorem expression_lands (stage : Stage c s) {e : Expr} (part : c.table.Part e) {led : Bool}
    (suits : led = true → Suits c firm s e)
    (room : Room c depth s (e.entered c.table firm led) (2 * e.weight) (n + 1))
    (field : String) :
    (expression runner { c with speculating := trial } field e s).Lands c trial s
      (led = true ∧ s.canStart c e = true) := by
  have own := e.weight_pos
  have enough : s.reserve c ≤ n := room.reserve_le (by omega)
  have checks := grounds.accepted.checks part
  have steady := grounds.steady_of_part part
  have light {p : Expr} (member : p ∈ e.inners) : p.weight < e.weight :=
    Expr.weight_lt_of_mem_inners member
  cases e with
  | tok sym words => exact tok_lands grounds serves stage part suits enough field
  | leaf kind sym => exact leaf_lands grounds serves stage part suits enough field
  | ref name =>
      refine reference_lands grounds serves stage part suits (room.mono ?_ (Nat.le_refl _))
        (by omega) field
      cases led <;> exact List.Subset.refl _
  | seq es =>
      refine sequence_lands grounds serves stage (fun e member => part.inner member) led suits
        (2 * (Expr.seq es).weight - 1) (fun e member => ?_) ?_
        (room.mono (List.Subset.refl _) (by omega)) field
      · have less := light member
        omega
      · have whole := part.weight_le
        omega
  | choice alts => exact choice_lands grounds serves stage part suits room field
  | ordered alts =>
      refine attempt_lands serves stage ?_ (fun e member => part.inner member) suits
        (2 * (Expr.ordered alts).weight - 1) (fun e member => ?_)
        (room.mono (List.Subset.refl _) (by omega)) field
      · rintro rfl
        simp [Table.Checks] at checks
      · have less := light member
        omega
  | opt body => exact opt_lands serves stage part suits room field
  | rep body min =>
      have spares : (Expr.rep body min).Spares body := .rep
      have spared (isLed : led = true) := (suits isLed).spared spares
      have fewer := spares.guarded_subset fun isLed => (spared isLed).1
      have weight : (Expr.rep body min).weight = 1 + min.toNat + (body.weight + 0) :=
        Expr.weight_eq _
      refine (serves trial led (.copies body min 0 field) s stage part trivial
        (room.mono fewer ?_)).mono fun starts => (spared starts.1).2 starts.2
      simp only [Task.load]
      omega
  | sepBy elem sep trailing => exact sepBy_lands serves stage part suits room field
  | field name body => exact field_lands serves stage part suits room field
  | immediate body =>
      simp only [expression, State.canStart_speculating]
      exact guard_lands grounds serves stage (Or.inl rfl) part suits room field
  | sameLine body =>
      simp only [expression, State.canStart_speculating]
      exact guard_lands grounds serves stage (Or.inr rfl) part suits room field
  | stmts name item closers =>
      have spares : (Expr.stmts name item closers).Spares item := .stmts
      have spared (isLed : led = true) := (suits isLed).spared spares
      have fewer := spares.guarded_subset fun isLed => (spared isLed).1
      have less := light (List.mem_singleton_self item)
      refine (serves trial led (.statements name item closers) s stage part trivial
        (room.mono fewer ?_)).mono fun starts => (spared starts.1).2 starts.2
      simp only [Task.load]
      omega
  | suffixed head many suffixes => exact suffixed_lands grounds serves stage part suits room field
  | binary kind operand ops => exact binary_lands serves stage part suits room field
  | unary kind ops operand => exact unary_lands grounds serves stage part suits room field

end

end MqTree.Parser
