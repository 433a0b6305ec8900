import Mathlib.Algebra.Group.Int.Defs
import Mathlib.Algebra.Group.Nat.Defs
import MqTree.Parser.Reuse
import MqTree.Proofs.Tree.Sound

namespace MqTree

namespace Edit

/-- The sizes of a text of `size` bytes before each edit and behind the last. -/
def sizes (size : Int64) : List Edit → List Int64
  | [] => [size]
  | e :: rest => size :: sizes (size + e.delta) rest

/-- No size on the way is the largest there is, behind which one more byte
could not be counted. -/
def Roomy (size : Int64) (edits : List Edit) : Prop :=
  ∀ n ∈ sizes size edits, n ≠ Int64.maxValue

instance (size : Int64) (edits : List Edit) : Decidable (Roomy size edits) :=
  List.decidableBAll _ (sizes size edits)

theorem mem_sizes (size : Int64) (edits : List Edit) : size ∈ sizes size edits := by
  cases edits <;> exact List.mem_cons_self

theorem Roomy.lt {size : Int64} {edits : List Edit} (roomy : Roomy size edits) :
    size.toInt + 1 < 2 ^ 63 := by
  have differs : size.toInt ≠ Int64.maxValue.toInt :=
    fun same => roomy size (mem_sizes size edits) (Int64.toInt_inj.mp same)
  have largest : Int64.maxValue.toInt = 2 ^ 63 - 1 := rfl
  have := size.toInt_lt
  omega

theorem Roomy.tail {size : Int64} {e : Edit} {rest : List Edit} (roomy : Roomy size (e :: rest)) :
    Roomy (size + e.delta) rest :=
  fun n member => roomy n (List.mem_cons_of_mem _ member)

def growth (e : Edit) : Int := e.newEnd.toInt - e.oldEnd.toInt

structure Inside (e : Edit) (size : Int) : Prop where
  start : 0 ≤ e.start.toInt
  oldEnd : e.start.toInt ≤ e.oldEnd.toInt
  newEnd : e.start.toInt ≤ e.newEnd.toInt
  size : e.oldEnd.toInt ≤ size

theorem inside_of_inRange {e : Edit} {size : Int64} (ranged : e.inRange size = true) :
    e.Inside size.toInt := by
  simp only [inRange, Bool.and_eq_true, decide_eq_true_iff, Int64.le_iff_toInt_le] at ranged
  obtain ⟨⟨⟨first, before⟩, last⟩, after⟩ := ranged
  exact ⟨first, before, after, last⟩

section

variable {e : Edit} {size final : Int64} {index : Nat} {edits rest : List Edit}

theorem Inside.delta (inside : e.Inside size.toInt) : e.delta.toInt = e.growth := by
  obtain ⟨start, oldEnd, newEnd, _⟩ := inside
  have below := e.newEnd.toInt_lt
  have above := e.oldEnd.toInt_lt
  rw [Edit.delta, Int64.toInt_sub, growth]
  exact Int.bmod_eq_of_le (by omega) (by omega)

theorem Inside.size_eq (inside : e.Inside size.toInt) (nonneg : 0 ≤ (size + e.delta).toInt) :
    (size + e.delta).toInt = size.toInt + e.growth := by
  have delta := inside.delta
  obtain ⟨start, oldEnd, newEnd, fits⟩ := inside
  have below := e.newEnd.toInt_lt
  have above := size.toInt_lt
  rw [Int64.toInt_add, delta] at nonneg ⊢
  unfold growth at nonneg ⊢
  rcases Int.lt_or_le (size.toInt + (e.newEnd.toInt - e.oldEnd.toInt)) (2 ^ 63) with small | large
  · exact Int.bmod_eq_of_le (by omega) (by omega)
  · -- A sum past the largest size comes out negative.
    have wrapped : (size.toInt + (e.newEnd.toInt - e.oldEnd.toInt)).bmod (2 ^ 64) =
        size.toInt + (e.newEnd.toInt - e.oldEnd.toInt) - 2 ^ 64 := by
      rw [← Int.sub_mul_bmod_self_right _ 1]
      exact Int.bmod_eq_of_le (by omega) (by omega)
    rw [wrapped] at nonneg
    omega

theorem sizeAfter_cons (checked : sizeAfter index size (e :: rest) = .ok final) :
    e.Inside size.toInt ∧ e.textFits = true ∧
      sizeAfter (index + 1) (size + e.delta) rest = .ok final := by
  rw [sizeAfter] at checked
  split at checked
  · contradiction
  next inRange =>
    split at checked
    · contradiction
    next fits =>
      rw [Bool.not_eq_true', Bool.not_eq_false] at inRange fits
      exact ⟨inside_of_inRange inRange, fits, checked⟩

theorem sizeAfter_nonneg (checked : sizeAfter index size edits = .ok final)
    (ends : 0 ≤ final.toInt) : 0 ≤ size.toInt := by
  cases edits with
  | nil =>
      rw [sizeAfter_nil] at checked
      rwa [Except.ok.inj checked]
  | cons e rest =>
      obtain ⟨inside, _, _⟩ := sizeAfter_cons checked
      have start := inside.start
      have oldEnd := inside.oldEnd
      have size := inside.size
      omega

theorem validate_ok {oldSize newSize : Int64} (valid : validate oldSize edits newSize = .ok ()) :
    sizeAfter 0 oldSize edits = .ok newSize := by
  unfold validate at valid
  cases after : sizeAfter 0 oldSize edits with
  | error e =>
      rw [after] at valid
      contradiction
  | ok size =>
      rw [after] at valid
      change (if size = newSize then pure () else throw (EditError.wrongLength size newSize)) =
        Except.ok () at valid
      split at valid
      next same => rw [same]
      next => contradiction

end

/-- How a range `[start, stop)` of a text of `size` bytes comes through edits,
to start at `new` in a text of `final` bytes. -/
inductive Carries : Int → Int → Int → List Edit → Int → Int → Prop
  | done (size start stop : Int) : Carries size start stop [] size start
  | moved {size start stop final new : Int} {e : Edit} {rest : List Edit} (inside : e.Inside size)
      (behind : e.oldEnd.toInt ≤ start)
      (later : Carries (size + e.growth) (start + e.growth) (stop + e.growth) rest final new) :
      Carries size start stop (e :: rest) final new
  | kept {size start stop final new : Int} {e : Edit} {rest : List Edit} (inside : e.Inside size)
      (before : stop ≤ e.start.toInt)
      (later : Carries (size + e.growth) start stop rest final new) :
      Carries size start stop (e :: rest) final new

theorem Carries.bounds {size start stop final new : Int} {edits : List Edit}
    (carries : Carries size start stop edits final new) (nonneg : 0 ≤ start)
    (order : start ≤ stop) (inside : stop ≤ size + 1) :
    0 ≤ new ∧ new + (stop - start) ≤ final + 1 := by
  induction carries with
  | done size start stop => omega
  | @moved size start stop final new e rest within behind later ih =>
      have start := within.start
      have newEnd := within.newEnd
      unfold growth at ih
      have := ih (by omega) (by omega) (by omega)
      omega
  | @kept size start stop final new e rest within before later ih =>
      have oldEnd := within.size
      have newEnd := within.newEnd
      unfold growth at ih
      exact ih nonneg order (by omega)

theorem Carries.reaches_end {size start stop final new : Int} {edits : List Edit}
    (carries : Carries size start stop edits final new) :
    new + (stop - start) = final + 1 ↔ stop = size + 1 := by
  induction carries with
  | done size start stop => omega
  | @moved size start stop final new e rest within behind later ih => omega
  | @kept size start stop final new e rest within before later ih =>
      -- The range ends before the edit, in the old text as in the new one.
      have oldEnd := within.oldEnd
      have newEnd := within.newEnd
      have size := within.size
      unfold growth at ih
      omega

theorem Carries.lt {size start stop start' stop' final new new' : Int} {edits : List Edit}
    (first : Carries size start stop edits final new)
    (second : Carries size start' stop' edits final new') (nonempty : start < stop)
    (nonempty' : start' < stop') (order : start < start') : new < new' := by
  induction first generalizing start' stop' with
  | done size start stop =>
      cases second
      exact order
  | @moved size start stop final new e rest inside behind later ih =>
      have oldEnd := inside.oldEnd
      cases second with
      | moved _ _ later' => exact ih later' (by omega) (by omega) (by omega)
      | kept _ before' _ => omega
  | @kept size start stop final new e rest inside before later ih =>
      have newEnd := inside.newEnd
      cases second with
      | moved _ behind' later' =>
          -- What the edit made room for lies between the two.
          have between : start < start' + e.growth := by
            unfold growth
            omega
          exact ih later' nonempty (by omega) between
      | kept _ _ later' => exact ih later' nonempty nonempty' order

theorem Carries.within {size start stop final new : Int} {edits : List Edit}
    (carries : Carries size start stop edits final new) (first last : Int) (above : start ≤ first)
    (below : last ≤ stop) : Carries size first last edits final (new + (first - start)) := by
  induction carries generalizing first last with
  | done size start stop =>
      rw [show start + (first - start) = first by omega]
      exact .done size first last
  | @moved size start stop final new e rest inside behind later ih =>
      have next := ih (first + e.growth) (last + e.growth) (by omega) (by omega)
      rw [show first + e.growth - (start + e.growth) = first - start by omega] at next
      exact .moved inside (by omega) next
  | @kept size start stop final new e rest inside before later ih =>
      exact .kept inside (by omega) (ih first last above below)

theorem survive_carries {size final start stop new : Int64} {edits : List Edit} {index : Nat}
    (checked : sizeAfter index size edits = .ok final) (ends : 0 ≤ final.toInt)
    (roomy : Roomy size edits) (nonneg : 0 ≤ start.toInt) (order : start.toInt ≤ stop.toInt)
    (inside : stop.toInt ≤ size.toInt + 1) (survived : survive start stop edits = some new) :
    Carries size.toInt start.toInt stop.toInt edits final.toInt new.toInt := by
  induction edits generalizing index size start stop with
  | nil =>
      rw [sizeAfter_nil] at checked
      rw [survive] at survived
      rw [Except.ok.inj checked, Option.some.inj survived]
      exact .done _ _ _
  | cons e rest ih =>
      obtain ⟨within, _, later⟩ := sizeAfter_cons checked
      have size_eq := within.size_eq (sizeAfter_nonneg later ends)
      have room := roomy.tail.lt
      have delta := within.delta
      rw [survive] at survived
      simp only [Bool.and_eq_true, decide_eq_true_iff, Int64.lt_iff_toInt_lt,
        Int64.le_iff_toInt_le] at survived
      split at survived
      · contradiction
      next apart =>
        have newEnd := within.newEnd
        have oldEnd := within.size
        have first := within.start
        split at survived
        next behind =>
          have start_eq : (start + e.delta).toInt = start.toInt + e.growth := by
            rw [Int64.toInt_add, delta]
            unfold growth at *
            exact Int.bmod_eq_of_le (by omega) (by omega)
          have stop_eq : (stop + e.delta).toInt = stop.toInt + e.growth := by
            rw [Int64.toInt_add, delta]
            unfold growth at *
            exact Int.bmod_eq_of_le (by omega) (by omega)
          have next := ih later roomy.tail (by unfold growth at *; omega) (by omega) (by omega)
            survived
          rw [size_eq, start_eq, stop_eq] at next
          exact .moved within behind next
        next ahead =>
          have next := ih later roomy.tail nonneg order (by unfold growth at *; omega) survived
          rw [size_eq] at next
          exact .kept within (by omega) next

end Edit

namespace Subtree

structure Offered (edits : List Edit) (n : Node) (entry : Int64 × Subtree) : Prop where
  marked : n.isStatement = true
  sub : entry.2 = n.sub
  survived : Edit.survive (Int64.ofInt n.start) (Int64.ofInt n.examined) edits = some entry.1

mutual

private theorem mem_survivors_sub (edits : List Edit) (sub : Subtree) (start : Int)
    {entry : Int64 × Subtree} (offered : entry ∈ sub.survivors edits (Int64.ofInt start)) :
    ∃ n ∈ (Node.mk sub start).walk, Offered edits n entry := by
  match sub with
  | .leaf .. | .missing .. => simp [survivors] at offered
  | .branch kind named length children scope =>
      rw [survivors] at offered
      obtain ⟨n, member, found⟩ := mem_survivors_children edits children
        ⟨.branch kind named length children scope, start⟩ offered
      refine ⟨n, ?_, found⟩
      rw [Node.walk_eq]
      exact List.mem_cons_of_mem _ member

private theorem mem_survivors_children (edits : List Edit) (children : List (Edge Subtree))
    (parent : Node) {entry : Int64 × Subtree}
    (offered : entry ∈ survivorsOfChildren edits (Int64.ofInt parent.start) children) :
    ∃ n ∈ (children.map parent.child).flatMap Node.walk, Offered edits n entry := by
  match children with
  | [] => simp [survivorsOfChildren] at offered
  | ⟨field, offset, node⟩ :: rest =>
      rw [survivorsOfChildren] at offered
      simp only [← Int64.ofInt_add] at offered
      rw [List.map_cons, List.flatMap_cons]
      rcases List.mem_append.mp offered with here | there
      · split at here
        next marked =>
          split at here
          next new survived =>
            rw [List.mem_singleton.mp here]
            exact ⟨⟨node, parent.start + offset⟩,
              List.mem_append_left _ (Node.mem_walk_self _), ⟨marked, rfl, survived⟩⟩
          next =>
            obtain ⟨n, member, found⟩ := mem_survivors_sub edits node (parent.start + offset) here
            exact ⟨n, List.mem_append_left _ member, found⟩
        next => contradiction
      · obtain ⟨n, member, found⟩ := mem_survivors_children edits rest parent there
        exact ⟨n, List.mem_append_right _ member, found⟩

end

def OfferedInOrder (edits : List Edit) (nodes : List Node) (first second : Int64 × Subtree) :
    Prop :=
  ∃ n ∈ nodes, ∃ m ∈ nodes, Offered edits n first ∧ Offered edits m second ∧ n.stop ≤ m.start

theorem OfferedInOrder.mono {edits : List Edit} {nodes more : List Node}
    {first second : Int64 × Subtree} (ordered : OfferedInOrder edits nodes first second)
    (subset : nodes ⊆ more) : OfferedInOrder edits more first second := by
  obtain ⟨n, left, m, right, offers⟩ := ordered
  exact ⟨n, subset left, m, subset right, offers⟩

mutual

/-- Statements are offered in the order in which they stand. -/
theorem survivors_pairwise (edits : List Edit) (sub : Subtree) (sound : sub.Sound) (start : Int) :
    (sub.survivors edits (Int64.ofInt start)).Pairwise
      (OfferedInOrder edits (Node.mk sub start).walk) := by
  match sub with
  | .leaf .. | .missing .. => exact List.Pairwise.nil
  | .branch kind named length children scope =>
      rw [Sound] at sound
      rw [survivors]
      refine (survivorsOfChildren_pairwise edits children sound.2
        ⟨.branch kind named length children scope, start⟩).imp fun ordered => ordered.mono ?_
      rw [Node.walk_eq]
      exact List.subset_cons_self _ _

theorem survivorsOfChildren_pairwise (edits : List Edit) {low high : Int}
    (children : List (Edge Subtree)) (sound : SoundFrom low high children) (parent : Node) :
    (survivorsOfChildren edits (Int64.ofInt parent.start) children).Pairwise
      (OfferedInOrder edits ((children.map parent.child).flatMap Node.walk)) := by
  match children with
  | [] => exact List.Pairwise.nil
  | ⟨field, offset, node⟩ :: rest =>
      rw [SoundFrom] at sound
      obtain ⟨_, own, later⟩ := sound
      rw [survivorsOfChildren, List.map_cons, List.flatMap_cons]
      simp only [← Int64.ofInt_add]
      rw [List.pairwise_append]
      refine ⟨?_, ?_, ?_⟩
      · have below {entries : List (Int64 × Subtree)}
            (ordered : entries.Pairwise
              (OfferedInOrder edits (parent.child ⟨field, offset, node⟩).walk)) :=
          ordered.imp fun pair => pair.mono (List.subset_append_left _
            ((rest.map parent.child).flatMap Node.walk))
        apply below
        split
        next =>
          split
          next => exact List.pairwise_singleton _ _
          next => exact survivors_pairwise edits node own (parent.start + offset)
        next => exact List.Pairwise.nil
      · exact (survivorsOfChildren_pairwise edits rest later parent).imp fun ordered =>
          ordered.mono (List.subset_append_right _ _)
      · -- The first is below this child, and so ends before the others start.
        intro first here second there
        have alone : first ∈ survivorsOfChildren edits (Int64.ofInt parent.start)
            [⟨field, offset, node⟩] := by
          rw [survivorsOfChildren]
          simp only [← Int64.ofInt_add]
          exact List.mem_append_left _ here
        obtain ⟨n, left, offered⟩ := mem_survivors_children edits _ parent alone
        obtain ⟨m, right, offered'⟩ := mem_survivors_children edits rest parent there
        rw [List.map_singleton, List.flatMap_singleton] at left
        have ends := Node.stop_le_of_mem_walk own left
        have starts := Node.start_le_of_mem_walks later right
        refine ⟨n, List.mem_append_left _ left, m, List.mem_append_right _ right, offered, offered',
          ?_⟩
        simp only [Node.child, Node.stop] at ends ⊢
        omega

end

end Subtree

namespace ReuseIndex

private theorem mem_insert {index : ReuseIndex} {start : Int64} {sub : Subtree}
    {entry : Int64 × Subtree} (member : entry ∈ (index.insert start sub).entries) :
    entry ∈ index.entries ∨ entry = (start, sub) := by
  rcases List.mem_append.mp member with old | new
  · exact Or.inl (List.mem_filter.mp old).1
  · exact Or.inr (List.mem_singleton.mp new)

private theorem mem_foldl_insert {offers : List (Int64 × Subtree)} {index : ReuseIndex}
    {entry : Int64 × Subtree}
    (member : entry ∈
      (offers.foldl (fun index (start, sub) => index.insert start sub) index).entries) :
    entry ∈ index.entries ∨ entry ∈ offers := by
  induction offers generalizing index with
  | nil => exact Or.inl member
  | cons offer rest ih =>
      rcases ih member with old | later
      · rcases mem_insert old with older | new
        · exact Or.inl older
        · rw [new]
          exact Or.inr List.mem_cons_self
      · exact Or.inr (List.mem_cons_of_mem _ later)

private theorem entries_foldl_insert {offers : List (Int64 × Subtree)} {index : ReuseIndex}
    (apart : (index.entries ++ offers).Pairwise fun first second => first.1 ≠ second.1) :
    (offers.foldl (fun index (start, sub) => index.insert start sub) index).entries =
      index.entries ++ offers := by
  induction offers generalizing index with
  | nil => exact (List.append_nil _).symm
  | cons offer rest ih =>
      have others : ∀ entry ∈ index.entries, (entry.1 != offer.1) = true := by
        intro entry member
        rw [bne_iff_ne]
        exact (List.pairwise_append.mp apart).2.2 entry member offer List.mem_cons_self
      have inserted : (index.insert offer.1 offer.2).entries = index.entries ++ [offer] := by
        rw [insert, List.filter_eq_self.mpr others]
      rw [List.append_cons, ← inserted] at apart
      rw [List.foldl_cons, ih apart, inserted, ← List.append_cons]

theorem entries_ofEdits {root : Subtree} {edits : List Edit}
    (apart : (root.survivors edits 0).Pairwise fun first second => first.1 ≠ second.1) :
    (ofEdits root edits).entries = root.survivors edits 0 :=
  entries_foldl_insert apart

theorem mem_ofEdits {root : Subtree} {edits : List Edit} {new : Int64} {sub : Subtree}
    (member : (new, sub) ∈ (ofEdits root edits).entries) :
    ∃ n ∈ (Node.mk root 0).walk, n.isStatement = true ∧ sub = n.sub ∧
      Edit.survive (Int64.ofInt n.start) (Int64.ofInt n.examined) edits = some new := by
  rcases mem_foldl_insert member with none | offered
  · contradiction
  · obtain ⟨n, below, marked, same, survived⟩ := Subtree.mem_survivors_sub edits root 0 offered
    exact ⟨n, below, marked, same, survived⟩

end ReuseIndex

end MqTree
