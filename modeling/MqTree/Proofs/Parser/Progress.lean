import MqTree.Proofs.Parser.Built

namespace MqTree.Parser

/-! Every run of the parser ends well if it may go deep enough: it gives up in
attempts only, and what it makes has a history. -/

namespace Outcome

variable {o : Outcome} {items : List Item} {r : State}

theorem after_nil (o : Outcome) : o.after [] = o := by
  cases o <;> rfl

theorem bind_eq_done {k : List Item → State → Outcome} (done : o.bind k = .done items r) :
    ∃ first q, o = .done first q ∧ k first q = .done items r := by
  cases o with
  | done first q => exact ⟨first, q, rfl, done⟩
  | failed q => contradiction
  | halted v => contradiction

theorem after_eq_done {front : List Item} (done : o.after front = .done items r) :
    ∃ rest, o = .done rest r ∧ items = front ++ rest := by
  obtain ⟨rest, q, made, last⟩ := bind_eq_done done
  obtain ⟨rfl, rfl⟩ := Outcome.done.inj last
  exact ⟨rest, made, rfl⟩

theorem after_eq_failed {front : List Item} (failed : o.after front = .failed r) :
    o = .failed r := by
  cases o with
  | done rest q => contradiction
  | failed q => exact failed
  | halted v => contradiction

end Outcome

structure Grows (c : Context) (s : State) (built items : List Item) (r : State) : Prop where
  passed : Passed c s r
  history : ∀ q, Built c q built s → Built c q items r
  some : built ≠ [] → items ≠ []
  led : ∀ start, Led start built → Led start items

namespace Task

def Admitted (t : Table) (o : Outline) (trial : Bool) : Task → Prop
  | .expr e _ => t.admits o trial e = true
  | .copies body min _ _ => t.admits o trial (.rep body min) = true
  | .elements elem sep trailing _ => t.admits o trial (.sepBy elem sep trailing) = true
  | .statements field item closers => t.admits o trial (.stmts field item closers) = true
  | .suffixes many all kind built _ =>
      (∃ head, t.admits o trial (.suffixed head many all) = true) ∧
        (kind ≠ "" → built ≠ [] ∧ isProper kind = true)
  | .operand kind part ops _ _ => t.admits o trial (.binary kind part ops) = true
  | .operators kind part ops _ _ _ => t.admits o trial (.binary kind part ops) = true

/-- The token starts a task, and will be taken by it. -/
def Hot (c : Context) (s : State) : Task → Prop
  | .expr e _ => e.leads c.table.nullables = true ∧ s.canStart c e = true
  | .elements elem _ _ _ => s.canStart c elem = true
  | .operand _ part _ _ _ => part.leads c.table.nullables = true ∧ s.canStart c part = true
  | _ => False

def cost (rank : String → Nat) (led : Bool) : Task → Nat
  | .expr e _ => e.cost rank led
  | .copies body min count _ => 1 + (min - count).toNat + body.cost rank true
  | .elements elem _ _ _ => 1 + elem.cost rank led
  | .statements _ item _ => 1 + item.cost rank true
  | .suffixes _ all _ _ _ => 1 + Expr.costOfTails rank all
  | .operand _ part _ _ _ => 2 + part.cost rank led
  | .operators _ _ _ _ _ _ => 1

def Makes (c : Context) (s : State) (items : List Item) (r : State) : Task → Prop
  | .suffixes _ _ _ built _ | .operators _ _ _ _ built _ =>
      Grows c s built items r
  | _ => Built c s items r

end Task

theorem Task.cost_pos (rank : String → Nat) (led : Bool) (task : Task) :
    0 < task.cost rank led := by
  cases task with
  | expr e field => exact Expr.cost_pos rank led e
  | _ => simp only [Task.cost]; omega

structure Ready (c : Context) (o : Outline) (s : State) : Prop where
  law : c.table.Lawful o
  stands : ∃ frames, Stands c frames s
  fit : s.reuse.Fit c.src.size

theorem Ready.adopts {c : Context} {o : Outline} {s : State} {field : String}
    {found : Except Violation (Item × State)} (ready : Ready c o s)
    (offered : reuse? c field s = some found) :
    c.speculating = false ∧ s.atBase = true ∧ ∃ sub reuse,
      s.reuse.take? (Int64.ofNat s.token.start) = some (sub, reuse) ∧
      Fits c.src.size s.token.start sub ∧
      found = .ok (⟨field, s.token.start, sub⟩, s.behind c sub reuse) := by
  obtain ⟨calm, base, sub, reuse, taken, made⟩ := reuse?_eq offered
  obtain ⟨frames, stands⟩ := ready.stands
  have fits := ready.fit s.token.start stands.reached.start_le sub
    (ReuseIndex.mem_of_take? taken).1
  exact ⟨calm, base, sub, reuse, taken, fits, made fits.inside fits.positive⟩

theorem Ready.next {c : Context} {o : Outline} {s r : State} {items : List Item}
    (ready : Ready c o s) (built : Built c s items r) : Ready c o r := by
  obtain ⟨frames, stands⟩ := ready.stands
  have passed := built.passed stands
  obtain ⟨frames', standing, _⟩ := passed.stands
  exact ⟨ready.law, ⟨frames', standing⟩,
    fun start inside sub member => ready.fit start inside sub (passed.reuse member)⟩

theorem Ready.passed {c : Context} {o : Outline} {s r : State} {items : List Item}
    (ready : Ready c o s) (built : Built c s items r) : Passed c s r := by
  obtain ⟨frames, stands⟩ := ready.stands
  exact built.passed stands

/-- The depth that is left for what is left of the text. -/
def State.budget (c : Context) (o : Outline) (s : State) : Nat :=
  (c.src.size - s.token.start) * o.bound

theorem Ready.budget_le {c : Context} {o : Outline} {s r : State} {items : List Item}
    (ready : Ready c o s) (built : Built c s items r) : r.budget c o ≤ s.budget c o := by
  have later := (ready.passed built).start_le
  exact Nat.mul_le_mul_right _ (by omega)

theorem Ready.budget_lt {c : Context} {o : Outline} {s r : State} {items : List Item}
    (ready : Ready c o s) (built : Built c s items r) (moved : s.token.start < r.prevEnd) :
    r.budget c o + o.bound ≤ s.budget c o := by
  obtain ⟨frames, stands⟩ := (ready.next built).stands
  have behind := stands.prevEnd_le_start
  have inside := stands.reached.start_le
  unfold State.budget
  rw [← Nat.succ_mul]
  exact Nat.mul_le_mul_right _ (by omega)

structure GaveUp (c : Context) (s r : State) : Prop where
  trial : c.speculating = true
  reach : s.lexer.reach ≤ r.lexer.reach
  limit : r.lexer.reach ≤ c.src.size + 1
  reuse : r.reuse = s.reuse

/-- What may become of a parse from `s` on. It is cut short only if it may not
go as deep as `limit`. -/
def Ends (c : Context) (s : State) (fuel limit : Nat) (made : List Item → State → Prop) :
    Outcome → Prop
  | .done items r => made items r
  | .failed r => GaveUp c s r
  | .halted _ => fuel < limit

namespace Ends

variable {c : Context} {o : Outline} {s r : State} {fuel limit : Nat} {items : List Item}
  {made made' : List Item → State → Prop} {outcome : Outcome}

theorem mono {limit' : Nat} (ends : Ends c s fuel limit made outcome) (le : limit ≤ limit')
    (more : ∀ items r, made items r → made' items r) : Ends c s fuel limit' made' outcome := by
  cases outcome with
  | done items r => exact more items r ends
  | failed r => exact ends
  | halted v => exact Nat.lt_of_lt_of_le ends le

theorem deeper {limit' : Nat} (ends : Ends c s fuel limit made outcome) (le : limit < limit') :
    Ends c s (fuel + 1) limit' made outcome := by
  cases outcome with
  | done items r => exact ends
  | failed r => exact ends
  | halted v => exact Nat.lt_of_le_of_lt ends le

theorem bind {k : List Item → State → Outcome} (ends : Ends c s fuel limit made outcome)
    (next : ∀ items r, made items r → Ends c s fuel limit made' (k items r)) :
    Ends c s fuel limit made' (outcome.bind k) := by
  cases outcome with
  | done items r => exact next items r ends
  | failed r => exact ends
  | halted v => exact ends

theorem bind_eq {k : List Item → State → Outcome} (ends : Ends c s fuel limit made outcome)
    (next : ∀ items r, outcome = .done items r → made items r →
      Ends c s fuel limit made' (k items r)) :
    Ends c s fuel limit made' (outcome.bind k) := by
  cases outcome with
  | done items r => exact next items r rfl ends
  | failed r => exact ends
  | halted v => exact ends

theorem behind (ready : Ready c o s) (built : Built c s items r)
    (ends : Ends c r fuel limit made outcome) : Ends c s fuel limit made outcome := by
  obtain ⟨frames, stands⟩ := ready.stands
  have passed := built.passed stands
  cases outcome with
  | done items q => exact ends
  | failed q =>
      obtain ⟨trial, reach, limit, reuse⟩ := ends
      exact ⟨trial, Nat.le_trans passed.reach reach, limit,
        reuse.trans (built.reuse_eq stands trial)⟩
  | halted v => exact ends

theorem unflush (ends : Ends c { s with pending := [] } fuel limit made outcome) :
    Ends c s fuel limit made outcome := by
  cases outcome with
  | done items r => exact ends
  | failed r => exact ⟨ends.trial, ends.reach, ends.limit, ends.reuse⟩
  | halted v => exact ends

theorem after (ends : Ends c s fuel limit made outcome) (items : List Item)
    (more : ∀ rest r, made rest r → made' (items ++ rest) r) :
    Ends c s fuel limit made' (outcome.after items) :=
  ends.bind more

end Ends

end MqTree.Parser
