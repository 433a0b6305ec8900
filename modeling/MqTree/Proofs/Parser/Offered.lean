import MqTree.Proofs.Edit.Batch
import MqTree.Proofs.Parser.WellFormed

namespace MqTree

/-! What survives edits is found where it is said to be, in the order that it
had, so that no statement takes the place of another on offer. -/

namespace Edit

variable {text new : Text} {edits : List Edit}

def texts (text : Text) : List Edit → List Text
  | [] => [text]
  | e :: rest => text :: texts (splice text e) rest

def Spacious (text : Text) (edits : List Edit) : Prop :=
  ∀ mid ∈ texts text edits, mid.size + 1 < 2 ^ 63

instance (text : Text) (edits : List Edit) : Decidable (Spacious text edits) :=
  List.decidableBAll _ (texts text edits)

namespace Spacious

theorem size_lt (spacious : Spacious text edits) : text.size + 1 < 2 ^ 63 := by
  apply spacious
  cases edits <;> exact List.mem_cons_self

theorem tail {e : Edit} {rest : List Edit} (spacious : Spacious text (e :: rest)) :
    Spacious (splice text e) rest :=
  fun mid member => spacious mid (List.mem_cons_of_mem _ member)

theorem counted (spacious : Spacious text edits) : Counted text edits := by
  refine ⟨Nat.lt_of_succ_lt spacious.size_lt, ?_⟩
  induction edits generalizing text with
  | nil => exact fun _ member => absurd member List.not_mem_nil
  | cons e rest ih =>
      have limit := spacious.tail.size_lt
      refine List.forall_mem_cons.mpr ⟨fun bytes own => ?_, ih spacious.tail⟩
      rw [splice, own, Option.getD_some, Array.size_append, Array.size_append] at limit
      omega

theorem new_lt (spacious : Spacious text edits) (rewrites : Rewrites text edits new) :
    new.size + 1 < 2 ^ 63 := by
  induction rewrites with
  | done text => exact spacious.size_lt
  | edit short inside full later ih => exact ih spacious.tail

theorem roomy (spacious : Spacious text edits) (rewrites : Rewrites text edits new) :
    Roomy (Int64.ofNat text.size) edits := by
  have below {mid : Text} (limit : mid.size + 1 < 2 ^ 63) :
      Int64.ofNat mid.size ≠ Int64.maxValue := by
    intro same
    have count := congrArg Int64.toInt same
    have largest : Int64.maxValue.toInt = 2 ^ 63 - 1 := rfl
    rw [Int64.toInt_ofNat_of_lt (by omega)] at count
    omega
  induction rewrites with
  | done text => exact List.forall_mem_singleton.mpr (below spacious.size_lt)
  | @edit text new e rest short inside full later ih =>
      have next := ih spacious.tail
      rw [← ofNat_size_splice inside full] at next
      exact List.forall_mem_cons.mpr ⟨below spacious.size_lt, next⟩

end Spacious

/-- How a range that survives comes through edits that are applied. -/
theorem Rewrites.carries (rewrites : Rewrites text edits new) (spacious : Spacious text edits)
    {start stop : Int} (nonneg : 0 ≤ start) (order : start < stop) (inside : stop ≤ text.size + 1)
    {found : Int64}
    (survived : survive (Int64.ofInt start) (Int64.ofInt stop) edits = some found) :
    Carries text.size start stop edits new.size found.toInt := by
  have room := spacious.size_lt
  have old := Int64.toInt_ofNat_of_lt (Nat.lt_of_succ_lt room)
  have final := Int64.toInt_ofNat_of_lt (Nat.lt_of_succ_lt (spacious.new_lt rewrites))
  have first := Int64.toInt_ofInt_of_le (n := start) (by omega) (by omega)
  have last := Int64.toInt_ofInt_of_le (n := stop) (by omega) (by omega)
  have checked : sizeAfter 0 (Int64.ofNat text.size) edits = .ok (Int64.ofNat new.size) :=
    rewrites.sizeAfter_eq
  have carries := survive_carries checked (by omega) (spacious.roomy rewrites) (by omega)
    (by omega) (by omega) survived
  rwa [old, final, first, last] at carries

theorem Rewrites.found (rewrites : Rewrites text edits new) (spacious : Spacious text edits)
    {start stop : Nat} (order : start < stop) (inside : stop ≤ text.size + 1) {found : Int64}
    (survived : survive (Int64.ofNat start) (Int64.ofNat stop) edits = some found) :
    ∃ place : Nat, found = Int64.ofNat place ∧
      (∀ k, start + k < min stop text.size → new[place + k]? = text[start + k]?) ∧
      place + (stop - start) ≤ new.size + 1 ∧
      (place + (stop - start) = new.size + 1 ↔ stop = text.size + 1) := by
  rw [← Int64.ofInt_eq_ofNat, ← Int64.ofInt_eq_ofNat] at survived
  have carries := rewrites.carries spacious (by omega) (by omega) (by omega) survived
  obtain ⟨above, below⟩ := carries.bounds (by omega) (by omega) (by omega)
  have ends := carries.reaches_end
  have agree := carries.agree rfl (by omega) (by omega) rewrites.full
  rw [rewrites.foldl_splice] at agree
  refine ⟨found.toInt.toNat, ?_, ?_, by omega, by omega⟩
  · rw [← Int64.ofInt_eq_ofNat, Int.toNat_of_nonneg above, Int64.ofInt_toInt]
  · intro k within
    rw [Nat.lt_min] at within
    exact (agree k (by omega)).symm

end Edit

namespace Tree.Steady

variable {t : Tree} {edits : List Edit} {new : Text}

theorem survivors_increase (steady : t.Steady) (rewrites : Edit.Rewrites t.text edits new)
    (spacious : Edit.Spacious t.text edits) :
    (t.root.survivors edits 0).Pairwise fun first second => first.1 < second.1 := by
  have carried {n : Node} {entry : Int64 × Subtree} (member : n ∈ t.rootNode.walk)
      (offered : Subtree.Offered edits n entry) : n.start < n.stop ∧ n.start < n.examined ∧
        Edit.Carries t.text.size n.start n.examined edits new.size entry.1.toInt := by
    obtain ⟨portable, inside⟩ := steady.statements n member offered.marked
    have positive := portable.positive
    have looked := portable.looked
    have nonneg : 0 ≤ n.start := Node.start_le_of_mem_walk steady.sound member
    have order : n.start < n.examined := by
      simp only [Node.examined, Node.stop]
      omega
    refine ⟨by simp only [Node.stop]; omega, order, ?_⟩
    exact rewrites.carries spacious nonneg order inside offered.survived
  refine (Subtree.survivors_pairwise edits t.root steady.sound 0).imp ?_
  rintro first second ⟨n, left, m, right, offered, offered', ordered⟩
  obtain ⟨positive, nonempty, carries⟩ := carried left offered
  obtain ⟨_, nonempty', carries'⟩ := carried right offered'
  rw [Int64.lt_iff_toInt_lt]
  exact carries.lt carries' nonempty nonempty' (by omega)

end Tree.Steady

namespace Parser

/-- Ranges that survive edits keep their bytes, whether they reach the end, and
their order; so all statements that survive stay on offer. -/
theorem survivors_carried {text new : Text} {edits : List Edit}
    (applied : Edit.applyAll text edits = .ok new) (spacious : Edit.Spacious text edits) :
    (∀ start stop : Nat, start < stop → stop ≤ text.size + 1 → ∀ found,
      Edit.survive (Int64.ofNat start) (Int64.ofNat stop) edits = some found →
        ∃ place : Nat, found = Int64.ofNat place ∧
          (∀ k, start + k < min stop text.size → new[place + k]? = text[start + k]?) ∧
          place + (stop - start) ≤ new.size + 1 ∧
          (place + (stop - start) = new.size + 1 ↔ stop = text.size + 1)) ∧
    (∀ start stop start' stop' : Nat, start < stop → stop ≤ text.size + 1 →
      start' < stop' → stop' ≤ text.size + 1 → ∀ found found',
        Edit.survive (Int64.ofNat start) (Int64.ofNat stop) edits = some found →
        Edit.survive (Int64.ofNat start') (Int64.ofNat stop') edits = some found' →
          start < start' → found < found') ∧
    ∀ window tree, Comes { window } tree → tree.text = text →
      (tree.root.survivors edits 0).Pairwise (fun first second => first.1 < second.1) ∧
        (ReuseIndex.ofEdits tree.root edits).entries = tree.root.survivors edits 0 := by
  have rewrites := spacious.counted.applyAll_iff.mp applied
  refine ⟨?_, ?_, ?_⟩
  · intro start stop order inside found survived
    exact rewrites.found spacious order inside survived
  · intro start stop start' stop' order inside order' inside' found found' survived survived' before
    rw [← Int64.ofInt_eq_ofNat, ← Int64.ofInt_eq_ofNat] at survived survived'
    have carries := rewrites.carries spacious (by omega) (by omega) (by omega) survived
    have carries' := rewrites.carries spacious (by omega) (by omega) (by omega) survived'
    rw [Int64.lt_iff_toInt_lt]
    exact carries.lt carries' (by omega) (by omega) (by omega)
  · rintro window tree comes rfl
    have increase := (comes.steady Mq.lawful).survivors_increase rewrites spacious
    refine ⟨increase, ReuseIndex.entries_ofEdits (increase.imp fun less same => ?_)⟩
    rw [same, Int64.lt_iff_toInt_lt] at less
    omega

def parting : List Edit := [⟨2, 2, 4, some (Text.ofString "c\n")⟩]

/-- What is inserted at the border of two ranges touches neither, and moves the
second. -/
theorem survivors_carried_parting : ∃ tree, Parser.parse {} (Text.ofString "a\nb") = .ok tree ∧
    Edit.survive 0 2 parting = some 0 ∧ Edit.survive 2 4 parting = some 4 ∧ (0 : Int64) < 4 ∧
      (∃ place : Nat, (4 : Int64) = Int64.ofNat place ∧
        (Text.ofString "a\nc\nb")[place]? = (Text.ofString "a\nb")[2]? ∧
        place + 2 = (Text.ofString "a\nc\nb").size + 1) ∧
      (ReuseIndex.ofEdits tree.root parting).entries = tree.root.survivors parting 0 := by
  obtain ⟨tree, parsed, src, _⟩ := parse_steady (p := {}) Mq.lawful (Text.ofString "a\nb")
  have applied : Edit.applyAll (Text.ofString "a\nb") parting = .ok (Text.ofString "a\nc\nb") := by
    decide +kernel
  have first : Edit.survive 0 2 parting = some 0 := by decide
  have second : Edit.survive 2 4 parting = some 4 := by decide
  obtain ⟨carried, increase, offered⟩ := survivors_carried applied (by decide)
  obtain ⟨place, found, bytes, _, ends⟩ := carried 2 4 (by decide) (by decide) 4 second
  refine ⟨tree, parsed, first, second, ?_, ⟨place, found, ?_, ?_⟩, ?_⟩
  · exact increase 0 2 2 4 (by decide) (by decide) (by decide) (by decide) 0 4 first second
      (by decide)
  · exact bytes 0 (by decide)
  · exact ends.mpr (by decide)
  · exact (offered 2 tree (.parsed parsed) src).2

end Parser

end MqTree
