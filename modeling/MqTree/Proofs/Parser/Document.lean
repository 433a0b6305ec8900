import MqTree.Parser.Revision
import MqTree.Proofs.Parser.Loops
import MqTree.Proofs.Parser.Marks

namespace MqTree.Parser

variable {c : Context} {o : Outline} {s r : State} {items : List Item}

theorem atListEnd_of_statements {field : String} {item : Expr} {closers : List String} {n : Nat}
    (done : run n c (.statements field item closers) s = .done items r) :
    r.atListEnd closers = true := by
  induction n generalizing s items with
  | zero => contradiction
  | succ n ih =>
      rw [run, step, statements] at done
      split at done
      next ended =>
        obtain ⟨_, rfl⟩ := Outcome.done.inj done
        exact ended
      next =>
        obtain ⟨rest, inner, _⟩ := Outcome.after_eq_done done
        split at inner
        · contradiction
        · obtain ⟨_, more, _⟩ := Outcome.after_eq_done inner
          exact ih more
        · split at inner
          · obtain ⟨_, _, _, next⟩ := Outcome.bind_eq_done inner
            obtain ⟨_, more, _⟩ := Outcome.after_eq_done next
            exact ih more
          · split at inner
            · contradiction
            · obtain ⟨_, more, _⟩ := Outcome.after_eq_done inner
              exact ih more

structure Parsed (c : Context) (o : Outline) (index : ReuseIndex) (items : List Item)
    (last : State) : Prop where
  ran : run (fuel c) c (.expr (.stmts "" (.ref o.statement) []) "") (State.initial c index) =
    .done items last
  built : Built c (State.initial c index) items last
  ended : last.token.isEnd = true

namespace Parsed

variable {index : ReuseIndex} {last : State}

def root (c : Context) (items : List Item) (last : State) : Subtree :=
  .node sourceFile true c.src.size 0 ((items ++ last.pending).map rootEdge)

theorem initial_ready (law : c.table.Lawful o) (fit : index.Fit c.src.size) :
    Ready c o (State.initial c index) := by
  obtain ⟨stands, _, reuse, _⟩ := Stands.initial c index
  refine ⟨law, ⟨[], stands⟩, ?_⟩
  rw [reuse]
  exact fit

private theorem fuel_ge (law : c.table.Lawful o) (start : Nat) :
    (c.src.size - start) * o.bound + o.bound ≤ fuel c := by
  have few : c.src.size - start + 1 ≤ c.src.size + 2 := by omega
  calc (c.src.size - start) * o.bound + o.bound
      = (c.src.size - start + 1) * o.bound := (Nat.succ_mul _ _).symm
    _ ≤ (c.src.size + 2) * (4 * c.table.weight + 4) := Nat.mul_le_mul few law.bound_le

theorem of_lawful (law : c.table.Lawful o) (calm : c.speculating = false)
    (fit : index.Fit c.src.size) : ∃ items last, Parsed c o index items last := by
  have ready := initial_ready law fit
  obtain ⟨rule, _, _, body, admitted⟩ := law.start
  rw [body] at admitted
  have cheap := affords_of_admits admitted false
  have enough := fuel_ge law (State.initial c index).token.start
  have works := run_works o (fuel c) (.expr (.stmts "" (.ref o.statement) []) "") ready
    (by rw [calm]; exact admitted) false nofun
  simp only [Task.cost] at works
  cases ran : run (fuel c) c (.expr (.stmts "" (.ref o.statement) []) "")
    (State.initial c index) with
  | done items last =>
      rw [ran] at works
      refine ⟨items, last, ran, works.1, ?_⟩
      cases deep : fuel c with
      | zero =>
          rw [deep] at ran
          contradiction
      | succ n =>
          rw [deep, run, step, expression] at ran
          have ended := atListEnd_of_statements ran
          rw [State.atListEnd] at ended
          simpa using ended
  | failed stuck =>
      rw [ran] at works
      rw [works.trial] at calm
      contradiction
  | halted v =>
      rw [ran] at works
      simp only [Ends, State.budget] at works
      omega

theorem build_eq (parsed : Parsed c o index items last) (law : c.table.Lawful o) :
    build c index = .ok (root c items last, last.trace.reverse) := by
  obtain ⟨rule, found, kind, body, _⟩ := law.start
  have ran := parsed.ran
  rw [← body] at ran
  rw [build, found]
  simp only [ran, rootChildren, parsed.ended, if_true, kind]
  rfl

theorem spread (parsed : Parsed c o index items last) :
    Spread 0 c.src.size (items ++ last.pending) := by
  obtain ⟨stands, prevEnd, _, _⟩ := Stands.initial c index
  have first := parsed.built.spread stands
  obtain ⟨frames, standing, _⟩ := (parsed.built.passed stands).stands
  have rest := standing.spread
  rw [standing.reached.isEnd_iff.mp parsed.ended] at rest
  rw [prevEnd] at first
  exact first.append rest

theorem root_sound (parsed : Parsed c o index items last) : (root c items last).Sound := by
  have sound := parsed.spread.soundFrom 0
  rw [Int.sub_zero, Int.sub_zero] at sound
  exact ⟨by decide, sound⟩

/-- What all statements of a parse keep to, all statements of its tree do. -/
theorem keeps (parsed : Parsed c o index items last) {P : Node → Prop} (keeps : Keeps c index P)
    {n : Node} (member : n ∈ (Node.mk (root c items last) 0).walk) (marked : n.isStatement = true) :
    Marked items n ∧ P n ∧ n.examined ≤ c.src.size + 1 := by
  obtain ⟨stands, _, reuse, _⟩ := Stands.initial c index
  obtain ⟨frames, standing, _⟩ := (parsed.built.passed stands).stands
  have holds := parsed.built.keeps stands keeps (by rw [reuse]; exact List.Subset.refl _) n
  have limit := Int.ofNat_le.mpr standing.reach_le
  rw [Node.walk_eq] at member
  rcases List.mem_cons.mp member with rfl | inner
  · contradiction
  · rcases marked_append.mp ⟨marked, marked_children inner⟩ with here | comment
    · exact ⟨here, (holds here).1, Int.le_trans (holds here).2 limit⟩
    · exact absurd comment (not_marked_comments standing.comments)

end Parsed

theorem parse_eq_of_build {p : Parser} {text : Text} {root : Subtree} {events : List Event}
    (built : build (p.context text) .empty = .ok (root, events)) :
    p.parse text = .ok { root, text, revision := 0, edits := [] } := by
  rw [parse, parseReported, built]
  rfl

theorem reparse_eq_of_build {p : Parser} {old : Tree} {edits : List Edit} {text : Text}
    {root : Subtree} {events : List Event}
    (valid : Edit.validate (Int64.ofNat old.text.size) edits (Int64.ofNat text.size) = .ok ())
    (built : build (p.context text) (.ofEdits old.root edits) = .ok (root, events)) :
    p.reparse old edits text =
      .ok { root, text, revision := old.revision + 1, edits := old.edits ++ edits } := by
  rw [reparse, reparseReported, valid]
  simp only [built, Except.mapError, Except.map, bind, Except.bind, pure, Except.pure]

theorem reparse_eq_of_invalid {p : Parser} {old : Tree} {edits : List Edit} {text : Text}
    {e : EditError}
    (invalid : Edit.validate (Int64.ofNat old.text.size) edits (Int64.ofNat text.size) = .error e) :
    p.reparse old edits text = .error (.invalid e) := by
  rw [reparse, reparseReported, invalid]
  rfl

end MqTree.Parser
