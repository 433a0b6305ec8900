import Mathlib.Data.List.Perm.Basic
import MqTree.Grammar.Mq
import MqTree.Proofs.Grammar.Accepted
import MqTree.Proofs.Parser.Start

namespace MqTree

/-! The token decides how a parse goes on: of alternatives that start with
different terminals it can start one at most, so that the order in which they
are listed does not matter. -/

section

variable {α : Type} {p : α → Bool} {xs listed : List α} {x : α}

theorem find?_eq_some_of_mem (one : xs.countP p ≤ 1) (member : x ∈ xs) (passes : p x = true) :
    xs.find? p = some x := by
  have kept : x ∈ xs.filter p := List.mem_filter.mpr ⟨member, passes⟩
  rw [List.countP_eq_length_filter] at one
  rw [← List.head?_filter]
  obtain ⟨y, only⟩ := List.length_eq_one_iff.mp
    (Nat.le_antisymm one (List.length_pos_of_mem kept))
  rw [only, List.mem_singleton] at kept
  rw [only, kept]
  rfl

theorem find?_eq_of_perm (same : listed.Perm xs) (one : xs.countP p ≤ 1) :
    listed.find? p = xs.find? p := by
  cases found : xs.find? p with
  | none =>
      rw [List.find?_eq_none] at found ⊢
      exact fun x member => found x (same.mem_iff.mp member)
  | some x =>
      have member := same.mem_iff.mpr (List.mem_of_find?_eq_some found)
      exact find?_eq_some_of_mem (same.countP_eq p ▸ one) member (List.find?_some found)

end

namespace Parser

variable {c : Context}

namespace State

variable {s : State} {x y : Expr}

theorem among_iff {set : TermSet} :
    s.among set = true ↔ ∃ id, s.terminal = some id ∧ set.has id = true := by
  unfold among
  cases s.terminal with
  | none => simp
  | some id => simp [TermSet.has]

theorem canStart_eq_false_of_apart (apart : c.table.first x &&& c.table.first y = TermSet.empty)
    (starts : s.canStart c x = true) : s.canStart c y = false := by
  apply Bool.eq_false_iff.mpr
  intro other
  obtain ⟨id, token, inX⟩ := among_iff.mp (among_of_canStart x starts)
  obtain ⟨id', token', inY⟩ := among_iff.mp (among_of_canStart y other)
  obtain rfl := Option.some.inj (token.symm.trans token')
  rw [TermSet.has_eq_false_of_apart apart inX] at inY
  contradiction

theorem countP_canStart_le {alts : List Expr}
    (apart : alts.Pairwise fun x y => c.table.first x &&& c.table.first y = TermSet.empty) :
    alts.countP (s.canStart c) ≤ 1 := by
  induction apart with
  | nil => exact Nat.zero_le 1
  | @cons alt rest others _ ih =>
      rw [List.countP_cons]
      split
      next starts =>
        have none : rest.countP (s.canStart c) = 0 := by
          rw [List.countP_eq_zero]
          intro other member
          rw [canStart_eq_false_of_apart (others other member) starts]
          exact Bool.false_ne_true
        omega
      next => exact ih

end State

theorem run_choice {alts : List Expr} {alt : Expr} {s : State}
    (found : alts.find? (s.canStart c) = some alt) (fuel : Nat) (field : String) :
    run (fuel + 1) c (.expr (.choice alts) field) s = run fuel c (.expr alt field) s := by
  show expression (run fuel) c field (.choice alts) s = _
  rw [expression, found]

section

variable {listed all : List (Suffix Expr)}

theorem run_suffixes_congr
    (same : ∀ s : State, (listed.find? fun x => s.canStart c x.tail) =
      all.find? fun x => s.canStart c x.tail)
    (fuel : Nat) (many : Bool) (kind : String) (built : List Item) (field : String) (s : State) :
    run fuel c (.suffixes many listed kind built field) s =
      run fuel c (.suffixes many all kind built field) s := by
  induction fuel generalizing kind built s with
  | zero => rfl
  | succ fuel ih =>
      show suffixes (run fuel) c many listed kind built field s =
        suffixes (run fuel) c many all kind built field s
      unfold suffixes
      rw [same s]
      cases all.find? fun x => s.canStart c x.tail with
      | none => rfl
      | some x =>
          simp only [ih]

theorem run_suffixed_congr
    (same : ∀ s : State, (listed.find? fun x => s.canStart c x.tail) =
      all.find? fun x => s.canStart c x.tail)
    (fuel : Nat) (head : Expr) (many : Bool) (field : String) (s : State) :
    run fuel c (.expr (.suffixed head many listed) field) s =
      run fuel c (.expr (.suffixed head many all) field) s := by
  cases fuel with
  | zero => rfl
  | succ fuel =>
      show expression (run fuel) c field (.suffixed head many listed) s =
        expression (run fuel) c field (.suffixed head many all) s
      simp only [expression, run_suffixes_congr same]

end

/-- By a grammar that passed all checks, a token can start only what has its
terminal among the first ones. So it can start one alternative of a choice and
one suffix at most, and a parse goes on with that one in whatever order they are
listed. -/
theorem token_decides {g : Grammar} (built : Table.build g = .ok c.table) (s : State) :
    (∀ e, c.table.Part e → s.canStart c e = true →
      ∃ id, s.terminal = some id ∧ (c.table.first e).has id = true) ∧
    (∀ alts, c.table.Part (.choice alts) → alts.countP (s.canStart c) ≤ 1 ∧
      ∀ listed, listed.Perm alts → listed.find? (s.canStart c) = alts.find? (s.canStart c) ∧
        ∀ alt ∈ alts, s.canStart c alt = true → ∀ fuel field,
          run (fuel + 1) c (.expr (.choice listed) field) s = run fuel c (.expr alt field) s) ∧
    (∀ head many all, c.table.Part (.suffixed head many all) →
      (all.countP fun x => s.canStart c x.tail) ≤ 1 ∧
      ∀ listed, listed.Perm all →
        (listed.find? fun x => s.canStart c x.tail) = (all.find? fun x => s.canStart c x.tail) ∧
        ∀ fuel field, run fuel c (.expr (.suffixed head many listed) field) s =
          run fuel c (.expr (.suffixed head many all) field) s) := by
  have accepted := Table.accepted_of_build built
  refine ⟨fun e _ starts => State.among_iff.mp (State.among_of_canStart e starts), ?_, ?_⟩
  · intro alts part
    have one := State.countP_canStart_le (s := s) (accepted.checks part).2
    refine ⟨one, fun listed same => ⟨find?_eq_of_perm same one, ?_⟩⟩
    intro alt member starts fuel field
    apply run_choice
    rw [find?_eq_of_perm same one]
    exact find?_eq_some_of_mem one member starts
  · intro head many all part
    have one (s : State) : (all.countP fun x => s.canStart c x.tail) ≤ 1 := by
      have tails := State.countP_canStart_le (s := s) (accepted.checks part).2
      rwa [List.countP_map] at tails
    refine ⟨one s, fun listed same => ?_⟩
    have found (s : State) := find?_eq_of_perm same (one s)
    exact ⟨found s, fun fuel field => run_suffixed_congr found fuel head many field s⟩

def forms : List Expr :=
  match Mq.statements[1].body with
  | .choice alts => alts
  | _ => []

def letText : Context := ⟨mq, Text.ofString "let x = 1", 2, false⟩

/-- A text that starts with `let` is a definition, also when the forms are tried the
other way round. -/
theorem token_decides_let :
    forms.countP ((State.initial letText .empty).canStart letText) ≤ 1 ∧
      run 40 letText (.expr (.choice (forms.reverse)) "") (.initial letText .empty) =
        run 39 letText (.expr (.ref "let_expr") "") (.initial letText .empty) := by
  obtain ⟨_, choices, _⟩ := token_decides (c := letText) Mq.build_eq (.initial letText .empty)
  have part : mq.Part (.choice forms) :=
    ⟨Mq.statements[1], List.mem_cons_of_mem _ List.mem_cons_self, Expr.mem_parts_self _⟩
  obtain ⟨one, listed⟩ := choices forms part
  refine ⟨one, (listed forms.reverse (List.reverse_perm forms)).2 (.ref "let_expr") ?_ ?_ 39 ""⟩
  · exact List.mem_of_getElem? (i := 4) rfl
  · decide +kernel

end Parser

end MqTree
