import MqTree.Proofs.Grammar.Language
import MqTree.Proofs.Parser.Coverage
import MqTree.Proofs.Parser.Described

namespace MqTree

/-! A parse without errors is a derivation: what it took of the text is a
sequence that the grammar stands for. -/

namespace Table.Derives

variable {t : Table} {α : Type} {R : Reading α} {prev : Option α} {u v w : List α}

theorem fewer {body : Expr} {least fewest : Int} (derives : t.Derives R prev (.rep body least) w)
    (le : fewest ≤ least) : t.Derives R prev (.rep body fewest) w := by
  generalize whole : Expr.rep body least = e at derives
  induction derives generalizing least fewest with
  | enough none =>
      obtain ⟨rfl, rfl⟩ := Expr.rep.inj whole
      exact .enough (Int.le_trans le none)
  | copy one more _ ih =>
      obtain ⟨rfl, rfl⟩ := Expr.rep.inj whole
      exact .copy one (ih (Int.sub_le_sub_right le 1) rfl)
  | _ => contradiction

theorem join {kind : String} {operand : Expr} {ops : List (String × UInt8)} {a : α}
    (left : t.Derives R prev (.binary kind operand ops) u)
    (symbol : R.symbol a ∈ ops.map Prod.fst)
    (right : t.Derives R (some a) (.binary kind operand ops) v) :
    t.Derives R prev (.binary kind operand ops) (u ++ a :: v) := by
  generalize whole : Expr.binary kind operand ops = e at right
  generalize start : some a = before at right
  induction right with
  | operand inner =>
      obtain ⟨rfl, rfl, rfl⟩ := Expr.binary.inj whole
      subst start
      exact .operator left symbol inner
  | operator _ symbol' right' ih =>
      obtain ⟨rfl, rfl, rfl⟩ := Expr.binary.inj whole
      rw [← List.cons_append, ← List.append_assoc]
      exact .operator (ih rfl start) symbol' right'
  | _ => contradiction

end Table.Derives

def Reading.tokens (src : Text) : Reading Token where
  symbol := Token.symbol
  spelled words token := ∃ word ∈ words, Text.ofString word = token.text src
  adjacent prev token := token.start = (prev.map Token.stop).getD 0
  sameLine token := token.newlineBefore = false
  repeats many := many = true

namespace Lexer

variable {src : Text} {l m : Lexer}

def rest (src : Text) (l : Lexer) : List Token :=
  (l.tokens src (src.size + 1)).dropLast.filter (·.kind != .comment)

theorem rest_of_cursor (cursor : m.toCursor = l.toCursor) : m.rest src = l.rest src := by
  rw [rest, rest, tokens_of_cursor _ cursor]

theorem rest_of_comment (inside : l.offset ≤ src.size) (kind : (l.next src).1.kind = .comment) :
    l.rest src = (l.next src).2.rest src := by
  have more : (l.next src).1.isEnd = false := by
    rw [Token.isEnd, kind]
    rfl
  rw [rest, dropLast_tokens inside, more, if_neg Bool.false_ne_true, List.filter_cons_of_neg]
  · rfl
  · rw [kind]
    decide

theorem rest_of_token (inside : l.offset ≤ src.size) (kind : (l.next src).1.kind ≠ .comment) :
    l.rest src =
      if (l.next src).1.isEnd then [] else (l.next src).1 :: (l.next src).2.rest src := by
  rw [rest, dropLast_tokens inside]
  split
  · rfl
  · rw [List.filter_cons_of_pos]
    · rfl
    · simpa using kind

end Lexer

namespace Parser

variable {c : Context} {s r q : State} {items : List Item}

def State.rest (c : Context) (s : State) : List Token :=
  if s.token.isEnd then [] else s.token :: s.lexer.rest c.src

theorem Advances.rest (advances : Advances c s r) (inside : s.lexer.offset ≤ c.src.size) :
    r.rest c = s.lexer.rest c.src := by
  induction advances with
  | token s plain => exact (Lexer.rest_of_token inside plain).symm
  | comment s kind rest ih =>
      have within := Lexer.next_within inside
      rw [Lexer.rest_of_comment inside kind]
      apply ih
      rw [Lexer.next_offset, ← Lexer.next_stop]
      exact within.2.2

theorem Returns.rest (returns : Returns s r) : r.rest c = s.rest c := by
  obtain ⟨reach, trace, rfl⟩ := returns
  simp only [State.rest, @Lexer.rest_of_cursor c.src s.lexer ⟨s.lexer.toCursor, reach⟩ rfl]

theorem Faces.rest (faces : Faces c s) (more : s.token.isEnd = false) :
    s.rest c = s.token :: (s.moved c).rest c := by
  have next := (State.moved_advances faces.inside).rest faces.inside
  rw [State.rest, more, if_neg Bool.false_ne_true]
  exact congrArg (List.cons s.token) next.symm

def Clean (items : List Item) : Prop := ∀ it ∈ items, it.node.hasError = false

theorem clean_append {more : List Item} : Clean (items ++ more) ↔ Clean items ∧ Clean more :=
  List.forall_mem_append

theorem Clean.left {more : List Item} (clean : Clean (items ++ more)) : Clean items :=
  (clean_append.mp clean).1

theorem Clean.right {more : List Item} (clean : Clean (items ++ more)) : Clean more :=
  (clean_append.mp clean).2

theorem clean_withField (field : String) : Clean (withField field items) ↔ Clean items := by
  unfold withField
  split
  · rfl
  · simp only [Clean, List.forall_mem_map, Item.node_withField]

theorem hasError_branch (kind : String) (named : Bool) (length start : Int) (scope : Scope) :
    (Subtree.branch kind named length (items.map (Item.edge start)) scope).hasError = false ↔
      kind ≠ errorKind ∧ Clean items := by
  rw [Subtree.hasError, Bool.or_eq_false_iff, beq_eq_false_iff_ne]
  refine and_congr_right fun _ => ?_
  induction items with
  | nil => simp [Subtree.anyHasError, Clean]
  | cons it items ih =>
      rw [List.map_cons, Item.edge, Subtree.anyHasError, Bool.or_eq_false_iff, ih]
      rw [Clean, Clean, List.forall_mem_cons]

theorem clean_finish {kind field : String} :
    Clean [s.finish kind field items] ↔ kind ≠ errorKind ∧ Clean items := by
  rw [Clean, List.forall_mem_singleton]
  cases items with
  | nil => exact @hasError_branch [] kind true 0 0 _
  | cons first rest => exact hasError_branch kind true _ first.start _

theorem clean_markStatement : Clean (markStatement s r items) ↔ Clean items := by
  unfold markStatement
  split
  next it =>
    split
    · rw [Clean, Clean, List.forall_mem_singleton, List.forall_mem_singleton]
      cases it.node <;> rfl
    · rfl
  next => rfl

theorem not_clean_placeholder {field label : String} {start : Int} :
    ¬Clean [⟨field, start, .placeholder label⟩] := by
  rw [Clean, List.forall_mem_singleton]
  exact Bool.true_eq_false.mp

theorem Wrong.not_clean {error : Item} (wrong : Wrong error) : ¬Clean [error] := by
  obtain ⟨last, skipped, rfl, _⟩ := wrong
  rw [clean_finish]
  exact fun clean => clean.1 rfl

theorem clean_closeSuffixes {kind : String} (clean : Clean (closeSuffixes s kind items)) :
    Clean items := by
  unfold closeSuffixes at clean
  split at clean
  · exact clean
  · exact (clean_finish.mp clean).2

theorem clean_gather {kind : String} {x : Suffix Expr} (clean : Clean (gather s kind x items)) :
    Clean items := by
  unfold gather at clean
  split at clean
  · exact clean
  · exact clean_closeSuffixes ((clean_withField _).mp clean)

/-! ### Reading along -/

namespace Job

def given : Job → List Item
  | .task (.suffixes _ _ _ built _) => built
  | .task (.operators _ _ _ _ left _) => left
  | _ => []

/-- What the tokens of a job that went well stand for. -/
def Reads (t : Table) (R : Reading Token) (prev : Option Token) (ts : List Token) : Job → Prop
  | .task (.expr e _) => t.Derives R prev e ts
  | .recover _ _ => False
  | .sequence es _ => t.Derives R prev (.seq es) ts
  | .task (.copies body min count _) => t.Derives R prev (.rep body (min - count)) ts
  | .task (.elements elem sep trailing _) =>
      ∃ u v, t.Derives R prev elem u ∧
        t.Derives R (behind prev u) (.rep (.seq [.tok sep [], elem]) 0) v ∧
        (ts = u ++ v ∨ trailing = true ∧ ∃ a, R.symbol a = sep ∧ ts = u ++ (v ++ [a]))
  | .task (.statements name item closers) => t.Derives R prev (.stmts name item closers) ts
  | .task (.suffixes many all _ _ _) =>
      ∀ {before head u}, behind before u = prev →
        t.Derives R before head u ∨
          R.repeats many ∧ t.Derives R before (.suffixed head many all) u →
        t.Derives R before (.suffixed head many all) (u ++ ts)
  | .task (.operand kind operand ops _ _) => t.Derives R prev (.binary kind operand ops) ts
  | .task (.operators kind operand ops _ _ _) =>
      ∀ {before u}, behind before u = prev → t.Derives R before (.binary kind operand ops) u →
        t.Derives R before (.binary kind operand ops) (u ++ ts)

end Job

structure Took (c : Context) (prev : Option Token) (s r : State) (ts : List Token) : Prop where
  rest : s.rest c = ts ++ r.rest c
  last : r.prevEnd = ((behind prev ts).map Token.stop).getD 0

namespace Took

variable {prev : Option Token} {ts us : List Token}

theorem nothing (here : s.prevEnd = (prev.map Token.stop).getD 0) : Took c prev s s [] :=
  ⟨rfl, here⟩

theorem append (first : Took c prev s q ts) (second : Took c (behind prev ts) q r us) :
    Took c prev s r (ts ++ us) :=
  ⟨by rw [first.rest, second.rest, List.append_assoc], by rw [second.last, behind_append]⟩

theorem token (faces : Faces c s) (more : s.token.isEnd = false) (prev : Option Token) :
    Took c prev s (s.moved c) [s.token] :=
  ⟨faces.rest more, State.prevEnd_moved c s⟩

theorem head_eq (took : Took c prev s r ts) {a : Token} (first : a ∈ ts.head?) : a = s.token := by
  cases ts with
  | nil => simp at first
  | cons b ts =>
      have rest := took.rest
      unfold State.rest at rest
      split at rest
      · simp at rest
      · obtain ⟨same, _⟩ := List.cons.inj rest
        simpa [same] using first.symm

end Took

theorem isEnd_of_ne_end (differs : s.token.symbol ≠ endSymbol) : s.token.isEnd = false := by
  apply Bool.eq_false_iff.mpr
  intro ended
  exact differs (State.symbol_of_isEnd ended)

theorem State.accepts_iff {words : List String} :
    s.accepts c words = true ↔
      words = [] ∨ ∃ word ∈ words, Text.ofString word = s.token.text c.src := by
  rw [State.accepts, Bool.or_eq_true, List.isEmpty_iff, List.any_eq_true]
  simp only [beq_iff_eq]

def Job.Covers (c : Context) (prev : Option Token) (s r : State) (job : Job) : Prop :=
  ∃ ts, Took c prev s r ts ∧ job.Reads c.table (.tokens c.src) prev ts

theorem State.prevEnd_behind (c : Context) (s : State) :
    (s.moved c).prevEnd = ((some s.token).map Token.stop).getD 0 :=
  State.prevEnd_moved c s

section

variable {prev : Option Token} {job first second : Job}

namespace Job.Covers

theorem nothing (here : s.prevEnd = (prev.map Token.stop).getD 0)
    (reads : job.Reads c.table (.tokens c.src) prev []) : job.Covers c prev s s :=
  ⟨[], .nothing here, reads⟩

theorem imp (covers : first.Covers c prev s r)
    (reads : ∀ {ts}, first.Reads c.table (.tokens c.src) prev ts →
      job.Reads c.table (.tokens c.src) prev ts) : job.Covers c prev s r := by
  obtain ⟨ts, took, own⟩ := covers
  exact ⟨ts, took, reads own⟩

theorem append (one : first.Covers c prev s q)
    (rest : ∀ {before : Option Token}, q.prevEnd = (before.map Token.stop).getD 0 →
      second.Covers c before q r)
    (reads : ∀ {us vs}, first.Reads c.table (.tokens c.src) prev us →
      second.Reads c.table (.tokens c.src) (behind prev us) vs →
      job.Reads c.table (.tokens c.src) prev (us ++ vs)) : job.Covers c prev s r := by
  obtain ⟨us, took, own⟩ := one
  obtain ⟨vs, took', others⟩ := rest took.last
  exact ⟨us ++ vs, took.append took', reads own others⟩

end Job.Covers

variable {body elem : Expr} {sep : String} {trailing : Bool} {field : String}

theorem covers_immediate (inner : (Job.task (.expr body field)).Covers c prev s r)
    (adjacent : s.token.start = (prev.map Token.stop).getD 0) :
    (Job.task (.expr (.immediate body) field)).Covers c prev s r := by
  obtain ⟨ts, took, derives⟩ := inner
  refine ⟨ts, took, .immediate derives fun a first => ?_⟩
  rw [took.head_eq first]
  exact adjacent

theorem covers_sameLine (inner : (Job.task (.expr body field)).Covers c prev s r)
    (unbroken : s.token.newlineBefore = false) :
    (Job.task (.expr (.sameLine body) field)).Covers c prev s r := by
  obtain ⟨ts, took, derives⟩ := inner
  refine ⟨ts, took, .sameLine derives fun a first => ?_⟩
  rw [took.head_eq first]
  exact unbroken

theorem covers_ordered {alts : List Expr} {alt : Expr} (member : alt ∈ alts)
    (returns : Returns s q) (one : (Job.task (.expr alt field)).Covers c prev q r) :
    (Job.task (.expr (.ordered alts) field)).Covers c prev s r := by
  obtain ⟨ts, took, derives⟩ := one
  exact ⟨ts, ⟨returns.rest.symm.trans took.rest, took.last⟩, .ordered member derives⟩

theorem covers_copy {least : Int} {count : Nat}
    (one : (Job.task (.expr body field)).Covers c prev s q)
    (rest : ∀ {before : Option Token}, q.prevEnd = (before.map Token.stop).getD 0 →
      (Job.task (.copies body least (count + 1) field)).Covers c before q r) :
    (Job.task (.copies body least count field)).Covers c prev s r := by
  refine one.append rest fun derives more => .copy derives ?_
  rwa [Int.sub_sub]

theorem covers_lastElement (one : (Job.task (.expr elem field)).Covers c prev s r) :
    (Job.task (.elements elem sep trailing field)).Covers c prev s r := by
  refine one.imp fun {ts} derives => ?_
  exact ⟨ts, [], derives, .enough (Int.le_refl 0), Or.inl (List.append_nil ts).symm⟩

theorem covers_statement {name : String} {item : Expr} {closers : List String}
    (one : (Job.task (.expr item name)).Covers c prev { s with pending := [] } q)
    (rest : ∀ {before : Option Token}, q.prevEnd = (before.map Token.stop).getD 0 →
      (Job.task (.statements name item closers)).Covers c before q r) :
    (Job.task (.statements name item closers)).Covers c prev s r := by
  obtain ⟨us, took, derives⟩ := one
  obtain ⟨vs, took', others⟩ := rest took.last
  exact ⟨us ++ vs, Took.append ⟨took.rest, took.last⟩ took', .statement derives others⟩

theorem covers_list (inner : (Job.task (.elements elem sep trailing field)).Covers c prev s r) :
    (Job.task (.expr (.sepBy elem sep trailing) field)).Covers c prev s r := by
  refine inner.imp ?_
  rintro ts ⟨u, v, one, more, rfl | ⟨rfl, a, symbol, rfl⟩⟩
  · exact .elements one more
  · exact .trailing one more symbol

theorem covers_separated (one : (Job.task (.expr elem field)).Covers c prev s q)
    (facing : Faces c q) (symbol : q.token.symbol = sep) (proper : sep ≠ endSymbol)
    (rest : (Job.task (.elements elem sep trailing field)).Covers c (some q.token) (q.moved c) r) :
    (Job.task (.elements elem sep trailing field)).Covers c prev s r := by
  obtain ⟨us, took, derives⟩ := one
  obtain ⟨ts, took', v, w, next, more, shape⟩ := rest
  have comma := Took.token facing (isEnd_of_ne_end (symbol ▸ proper)) (behind prev us)
  refine ⟨us ++ ([q.token] ++ ts), took.append (comma.append took'), us, q.token :: v ++ w,
    derives, ?_, ?_⟩
  · have last : c.table.Derives (.tokens c.src) (some q.token) (.seq [elem]) (v ++ []) :=
      .cons next .nil
    rw [List.append_nil] at last
    exact .copy (.cons (u := [q.token]) (.tok symbol (Or.inl rfl)) last)
      (Table.Derives.fewer (by simpa using more) (by decide))
  · rcases shape with rfl | ⟨more, b, last, rfl⟩
    · exact Or.inl rfl
    · exact Or.inr ⟨more, b, last, by simp⟩

theorem covers_trailing (one : (Job.task (.expr elem field)).Covers c prev s q)
    (facing : Faces c q) (symbol : q.token.symbol = sep) (proper : sep ≠ endSymbol) :
    (Job.task (.elements elem sep true field)).Covers c prev s (q.moved c) := by
  obtain ⟨us, took, derives⟩ := one
  have comma := Took.token facing (isEnd_of_ne_end (symbol ▸ proper)) (behind prev us)
  exact ⟨_, took.append comma, us, [], derives, .enough (Int.le_refl 0),
    Or.inr ⟨rfl, _, symbol, rfl⟩⟩

variable {all : List (Suffix Expr)} {x : Suffix Expr} {kind kind' : String} {many : Bool}
  {built built' : List Item}

theorem covers_noSuffix (here : s.prevEnd = (prev.map Token.stop).getD 0) :
    (Job.task (.suffixes many all kind built field)).Covers c prev s s := by
  refine .nothing here fun _ front => ?_
  rw [List.append_nil]
  exact front.elim .head And.right

theorem covers_suffix (member : x ∈ all) (one : (Job.task (.expr x.tail "")).Covers c prev s q)
    (rest : ∀ {before : Option Token}, q.prevEnd = (before.map Token.stop).getD 0 →
      (Job.task (.suffixes true all kind' built' field)).Covers c before q r) :
    (Job.task (.suffixes true all kind built field)).Covers c prev s r := by
  refine one.append rest fun {us vs} derives reads {before _ u} start front => ?_
  subst start
  rw [← List.append_assoc]
  refine reads (behind_append before u us) (Or.inr ⟨rfl, ?_⟩)
  rcases front with front | ⟨again, front⟩
  · exact .suffix front member derives
  · exact .suffixes again front member derives

theorem covers_onlySuffix (member : x ∈ all)
    (one : (Job.task (.expr x.tail "")).Covers c prev s q) :
    (Job.task (.suffixes false all kind built field)).Covers c prev s q := by
  refine one.imp fun {ts} derives {before _ u} start front => ?_
  subst start
  rcases front with front | ⟨again, _⟩
  · exact .suffix front member derives
  · contradiction

variable {operand : Expr} {ops : List (String × UInt8)} {marks : List String} {least power : UInt8}
  {left left' : List Item}

theorem covers_noOperator (here : s.prevEnd = (prev.map Token.stop).getD 0) :
    (Job.task (.operators kind operand ops least left field)).Covers c prev s s := by
  refine .nothing here fun _ chain => ?_
  rwa [List.append_nil]

theorem covers_operator (faces : Faces c s) (mark : s.token.kind = .punctuation)
    (member : s.token.lit ∈ ops.map Prod.fst)
    (one : (Job.task (.operand kind operand ops power "right")).Covers c (some s.token)
      (s.moved c) q)
    (rest : ∀ {before : Option Token}, q.prevEnd = (before.map Token.stop).getD 0 →
      (Job.task (.operators kind operand ops least left' field)).Covers c before q r) :
    (Job.task (.operators kind operand ops least left field)).Covers c prev s r := by
  obtain ⟨more, symbol⟩ := isEnd_of_mark mark
  have sign := Took.token faces more prev
  obtain ⟨us, took, derives⟩ := one
  obtain ⟨vs, took', reads⟩ := rest (sign.append took).last
  refine ⟨_, (sign.append took).append took', fun {before u} start front => ?_⟩
  subst start
  rw [← List.append_assoc]
  exact reads (behind_append before u _) (front.join (symbol.symm ▸ member :) derives)

theorem covers_signed (faces : Faces c s) (mark : s.token.kind = .punctuation)
    (member : s.token.lit ∈ marks)
    (inner : (Job.task (.expr (.unary kind marks operand) "operand")).Covers c (some s.token)
      (s.moved c) r) :
    (Job.task (.expr (.unary kind marks operand) field)).Covers c prev s r := by
  obtain ⟨more, symbol⟩ := isEnd_of_mark mark
  obtain ⟨ts, took, derives⟩ := inner
  exact ⟨_, (Took.token faces more prev).append took, .signed (symbol.symm ▸ member :) derives⟩

end

theorem Yields.not_clean {e : Expr} {field : String}
    (yields : Yields c (.recover e field) s items r) (faces : Faces c s) : ¬Clean items := by
  intro clean
  cases yields with
  | placeholder => exact not_clean_placeholder clean
  | skipped found => exact absurd clean.left (faces.skipTo found).2.not_clean

theorem Yields.given_clean {job : Job} (yields : Yields c job s items r) (clean : Clean items) :
    Clean job.given := by
  induction yields with
  | noSuffix => exact clean_closeSuffixes ((clean_withField _).mp clean)
  | suffix member _ one rest first second => exact clean_gather (second clean).left
  | onlySuffix member _ one ih =>
      have closed := clean_closeSuffixes ((clean_withField _).mp clean)
      exact clean_gather closed.left
  | noOperator => exact (clean_withField _).mp clean
  | operator mark member _ _ one rest first second =>
      have joined := (clean_finish.mp (second clean)).2
      exact (clean_withField _).mp joined.left.left
  | _ => exact fun it none => absurd none List.not_mem_nil

/-- What a job without errors took of the text is what its expression stands
for. -/
theorem Yields.reads {job : Job} (yields : Yields c job s items r) (faces : Faces c s)
    (known : job.Known c.table) (ends : ∀ {elem sep trailing},
      c.table.Part (.sepBy elem sep trailing) → sep ≠ endSymbol)
    (clean : Clean items) {prev : Option Token}
    (here : s.prevEnd = (prev.map Token.stop).getD 0) : job.Covers c prev s r := by
  induction yields generalizing prev with
  | tok more symbol word =>
      exact ⟨[_], .token faces more prev, .tok symbol (State.accepts_iff.mp word)⟩
  | leaf more symbol => exact ⟨[_], .token faces more prev, .leaf symbol⟩
  | placeholder => exact absurd clean not_clean_placeholder
  | skipped found => exact absurd clean.left (faces.skipTo found).2.not_clean
  | recovered _ inner | distant _ inner | broken _ inner =>
      exact absurd clean (inner.not_clean faces)
  | forced one => exact absurd clean.left (one.not_clean faces)
  | dangling one _ rest => exact absurd clean.right.right (rest.not_clean (one.faces faces).moved)
  | unexpected skip =>
      exact absurd clean.right.left (faces.flush.skipStatement skip).2.not_clean
  | spliced found hidden inner ih =>
      exact (ih faces (Table.part_body found) clean here).imp (.ref found)
  | node found visible inner ih =>
      exact (ih faces (Table.part_body found) (clean_finish.mp clean).2 here).imp (.ref found)
  | seq inner ih => exact ih faces (fun e member => known.inner member) clean here
  | nil => exact .nothing here .nil
  | absent => exact .nothing here .absent
  | noElement => exact .nothing here .noElement
  | ended => exact .nothing here .noStatement
  | enough least => exact .nothing here (.enough (by omega))
  | cons head rest first second =>
      obtain ⟨atHead, others⟩ := List.forall_mem_cons.mp known
      exact (first faces atHead clean.left here).append
        (second (head.faces faces) others clean.right) .cons
  | choice member inner ih =>
      exact (ih faces (known.inner member) clean here).imp (.choice member)
  | ordered member returns inner ih =>
      exact covers_ordered member returns (ih (faces.returns returns) (known.inner member) clean
        (returns.prevEnd.trans here))
  | present inner ih => exact (ih faces (known.only rfl) clean here).imp .present
  | field inner ih => exact (ih faces (known.only rfl) clean here).imp .field
  | unsigned inner ih => exact (ih faces (known.only rfl) clean here).imp .unsigned
  | rep inner ih =>
      exact (ih faces known clean here).imp fun reads => by simpa [Job.Reads] using reads
  | stmts inner ih | binary inner ih => exact ih faces known clean here
  | copy one rest first second =>
      exact covers_copy (first faces (known.only rfl) clean.left here)
        (second (one.faces faces) known clean.right)
  | list inner ih => exact covers_list (ih faces known clean here)
  | lastElement one ih => exact covers_lastElement (ih faces (known.only rfl) clean here)
  | separated one symbol rest first second =>
      have facing := one.faces faces
      exact covers_separated (first faces (known.only rfl) clean.left here) facing symbol
        (ends known) (second facing.moved known clean.right.right (State.prevEnd_behind c _))
  | trailing one symbol ih =>
      exact covers_trailing (ih faces (known.only rfl) clean.left here) (one.faces faces) symbol
        (ends known)
  | immediate adjacent inner ih =>
      exact covers_immediate (ih faces (known.only rfl) clean here) (adjacent.trans here)
  | sameLine unbroken inner ih =>
      exact covers_sameLine (ih faces (known.only rfl) clean here) unbroken
  | statement one rest first second =>
      have items := clean_markStatement.mp clean.right.left
      exact covers_statement (first faces.flush (known.only rfl) items here)
        (second (one.faces faces.flush) known clean.right.right)
  | suffixed front rest first second =>
      exact (first faces known.head (rest.given_clean clean) here).append
        (second (front.faces faces) ⟨_, known⟩ clean) fun derives reads => reads rfl (.inl derives)
  | noSuffix => exact covers_noSuffix here
  | suffix member _ one rest first second =>
      obtain ⟨head, part⟩ := known
      have right := (rest.given_clean clean).right
      exact covers_suffix member (first faces (part.tail member) right here)
        (second (one.faces faces) ⟨head, part⟩ clean)
  | onlySuffix member _ one ih =>
      obtain ⟨_, part⟩ := known
      have closed := clean_closeSuffixes ((clean_withField _).mp clean)
      exact covers_onlySuffix member (ih faces (part.tail member) closed.right here)
  | operand one rest first second =>
      exact (first faces (known.only rfl) (rest.given_clean clean) here).append
        (second (one.faces faces) known clean) fun derives reads => reads rfl (.operand derives)
  | noOperator => exact covers_noOperator here
  | operator mark member _ _ one rest first second =>
      have joined := (clean_finish.mp (rest.given_clean clean)).2
      exact covers_operator faces mark member
        (first faces.moved known joined.right (State.prevEnd_behind c _))
        (second (one.faces faces.moved) known clean)
  | signed mark member inner ih =>
      have right := (clean_finish.mp clean).2.right
      exact covers_signed faces mark member (ih faces.moved known right (State.prevEnd_behind c _))

/-- A tree without errors is a derivation of the tokens of its text, and with
errors it has a node that says so. -/
theorem parse_derives (window : Nat) (text : Text) :
    ∃ tree init last, Parser.parse { window } text = .ok tree ∧
      Lexer.tokenize text 0 = .ok (init ++ [last]) ∧ last.isEnd = true ∧
      (tree.rootNode.sub.hasError = true ↔ ∃ n ∈ tree.rootNode.walk, n.Faulty) ∧
      (tree.rootNode.sub.hasError = false →
        mq.Derives (.tokens text) none (.ref sourceFile) (init.filter (·.kind != .comment))) := by
  obtain ⟨items, state, parsed, describes⟩ := parse_described window text
  obtain ⟨init, last, made, ended⟩ := @Lexer.tokens_ends text .initial (text.size + 1)
    (Nat.zero_le _) (by omega)
  refine ⟨_, init, last, parse_eq_of_build (parsed.build_eq Mq.lawful), ?_, ended,
    describes.hasError_iff 0, fun sound => ?_⟩
  · rw [Lexer.tokenize, Lexer.start, if_pos ⟨Int.le_refl 0, Int.natCast_nonneg _⟩, ← made]
    rfl
  · have clean := ((hasError_branch sourceFile true _ 0 _).mp sound).2
    have separators {elem : Expr} {sep : String} {trailing : Bool}
        (part : mq.Part (.sepBy elem sep trailing)) : sep ≠ endSymbol := by
      have own := Mq.tidy.parts part
      rw [Expr.tidy, Bool.and_eq_true] at own
      exact (isProper_iff.mp own.1).1
    have begin : (State.initial (Parser.context { window } text) .empty).prevEnd =
        ((none : Option Token).map Token.stop).getD 0 := (Stands.initial _ .empty).2.1
    obtain ⟨ts, took, derives⟩ := (parsed.yields rfl).reads (Faces.initial _ .empty) mq_part_start
      separators clean.left begin
    -- All tokens are ahead at the start, and none at the end.
    have start : (State.initial (Parser.context { window } text) .empty).rest
        (Parser.context { window } text) = Lexer.initial.rest text :=
      (State.initial_advances _ .empty).rest (Nat.zero_le _)
    have stop : state.rest (Parser.context { window } text) = [] := by
      rw [State.rest, parsed.ended, if_pos rfl]
    have all := took.rest
    rw [start, stop, List.append_nil, Lexer.rest, made, List.dropLast_concat] at all
    rw [all]
    exact .ref Mq.start_eq derives

end Parser

end MqTree
