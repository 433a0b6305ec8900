import MqTree.Proofs.Edit.Batch

namespace MqTree.Edit

/-! What a check of edits with sizes that wrap around says of the sizes that do
not: it lets through exactly the edits that are in order over the integers, with
every size on the way small enough to be counted. -/

/-- The size of a text of `size` bytes before the `i`th edit, over all
integers. -/
def sizeAt (size : Int) (edits : List Edit) : Nat → Int
  | 0 => size
  | i + 1 => sizeAt size edits i + (edits[i]?.map growth).getD 0

/-- An edit that has no text, or as many bytes as it makes room for. -/
def Matched (e : Edit) : Prop :=
  ∀ bytes ∈ e.text, (bytes.size : Int) = e.newEnd.toInt - e.start.toInt

structure Tally (size : Int) (edits : List Edit) (final : Int) : Prop where
  inside : ∀ i (e : Edit), edits[i]? = some e → e.Inside (sizeAt size edits i)
  matched : ∀ e ∈ edits, e.Matched
  counted : ∀ i ≤ edits.length, sizeAt size edits i < 2 ^ 63
  ends : sizeAt size edits edits.length = final

variable {e : Edit} {rest edits : List Edit}

theorem sizeAt_cons (size : Int) (i : Nat) :
    sizeAt size (e :: rest) (i + 1) = sizeAt (size + e.growth) rest i := by
  induction i with
  | zero => rfl
  | succ i ih => rw [sizeAt, ih, List.getElem?_cons_succ, sizeAt]

namespace Tally

theorem nil_iff {size final : Int} : Tally size [] final ↔ size < 2 ^ 63 ∧ size = final := by
  constructor
  · intro tally
    exact ⟨tally.counted 0 (Nat.le_refl 0), tally.ends⟩
  · rintro ⟨small, same⟩
    refine ⟨fun _ _ none => (nomatch none), fun _ none => absurd none List.not_mem_nil, ?_, same⟩
    intro i bound
    rwa [Nat.le_zero.mp bound]

theorem cons_iff {size final : Int} :
    Tally size (e :: rest) final ↔
      size < 2 ^ 63 ∧ e.Inside size ∧ e.Matched ∧ Tally (size + e.growth) rest final := by
  constructor
  · intro tally
    obtain ⟨own, others⟩ := List.forall_mem_cons.mp tally.matched
    refine ⟨tally.counted 0 (Nat.zero_le _), tally.inside 0 e rfl, own, ?_, others, ?_, ?_⟩
    · intro i other found
      rw [← sizeAt_cons]
      exact tally.inside (i + 1) other found
    · intro i bound
      rw [← sizeAt_cons]
      exact tally.counted (i + 1) (Nat.succ_le_succ bound)
    · rw [← sizeAt_cons]
      exact tally.ends
  · rintro ⟨small, inside, matched, later⟩
    refine ⟨?_, List.forall_mem_cons.mpr ⟨matched, later.matched⟩, ?_, ?_⟩
    · rintro (_ | i) other found
      · obtain rfl := Option.some.inj found
        exact inside
      · rw [sizeAt_cons]
        exact later.inside i other found
    · rintro (_ | i) bound
      · exact small
      · rw [sizeAt_cons]
        exact later.counted i (Nat.le_of_succ_le_succ bound)
    · rw [List.length_cons, sizeAt_cons]
      exact later.ends

theorem lt {size final : Int} (tally : Tally size edits final) : size < 2 ^ 63 := by
  cases edits with
  | nil => exact (nil_iff.mp tally).1
  | cons e rest => exact (cons_iff.mp tally).1

end Tally

theorem textFits_iff {size : Int} (inside : e.Inside size)
    (short : ∀ bytes ∈ e.text, bytes.size < 2 ^ 63) : e.textFits = true ↔ e.Matched := by
  cases given : e.text with
  | none => simp [textFits, Matched, given]
  | some bytes =>
      have room : bytes.size < 2 ^ 63 := short bytes given
      constructor
      · intro fits other same
        obtain ⟨own, text, count⟩ := Full.of_textFits inside given room fits
        rw [given] at text same
        rwa [← Option.some.inj same, Option.some.inj text]
      · intro matched
        exact Full.textFits ⟨bytes, given, matched bytes given⟩

/-- A size that can be counted is as it should be, and one that cannot turns
negative. -/
theorem Inside.size_nonneg_iff {size : Int64} (inside : e.Inside size.toInt) :
    0 ≤ (size + e.delta).toInt ↔ size.toInt + e.growth < 2 ^ 63 := by
  constructor
  · intro nonneg
    rw [← inside.size_eq nonneg]
    exact (size + e.delta).toInt_lt
  · intro small
    obtain ⟨start, oldEnd, newEnd, fits⟩ := id inside
    rw [Int64.toInt_add, inside.delta, Int.bmod_eq_of_le]
    all_goals unfold growth at small ⊢; omega

/-- One size that could not be counted is never made good by later edits. -/
theorem sizeAfter_iff {index : Nat} {size final : Int64} (ends : 0 ≤ final.toInt)
    (short : ∀ e ∈ edits, ∀ bytes ∈ e.text, bytes.size < 2 ^ 63) :
    sizeAfter index size edits = .ok final ↔ Tally size.toInt edits final.toInt := by
  induction edits generalizing index size with
  | nil =>
      rw [sizeAfter_nil, Tally.nil_iff, Int64.toInt_inj]
      exact ⟨fun same => ⟨size.toInt_lt, Except.ok.inj same⟩, fun same => congrArg _ same.2⟩
  | cons e rest ih =>
      obtain ⟨own, others⟩ := List.forall_mem_cons.mp short
      rw [Tally.cons_iff]
      constructor
      · intro checked
        obtain ⟨inside, fits, later⟩ := sizeAfter_cons checked
        -- A size that was cut off is negative, and no edit gets past that.
        have next := sizeAfter_nonneg later ends
        refine ⟨size.toInt_lt, inside, (textFits_iff inside own).mp fits, ?_⟩
        rw [← inside.size_eq next]
        exact (ih others).mp later
      · rintro ⟨_, inside, matched, later⟩
        -- The next size can be counted, and so was not cut off.
        have next := inside.size_nonneg_iff.mpr later.lt
        rw [← inside.size_eq next] at later
        rw [sizeAfter, inside.inRange, (textFits_iff inside own).mpr matched]
        exact (ih others).mpr later

/-- Edits are accepted exactly if they are in order over the integers, whatever
wraps around on the way. -/
theorem validate_iff_tally (oldSize newSize : Nat) (edits : List Edit) (old : oldSize < 2 ^ 63)
    (new : newSize < 2 ^ 63) (short : ∀ e ∈ edits, ∀ bytes ∈ e.text, bytes.size < 2 ^ 63) :
    validate (Int64.ofNat oldSize) edits (Int64.ofNat newSize) = .ok () ↔
      Tally oldSize edits newSize := by
  have before := Int64.toInt_ofNat_of_lt old
  have behind := Int64.toInt_ofNat_of_lt new
  have checks : validate (Int64.ofNat oldSize) edits (Int64.ofNat newSize) = .ok () ↔
      sizeAfter 0 (Int64.ofNat oldSize) edits = .ok (Int64.ofNat newSize) :=
    ⟨validate_ok, validate_of_sizeAfter⟩
  rw [checks, sizeAfter_iff (by omega) short, before, behind]

/-- The largest size there is can be reached; what goes past it by one byte is
refused, even if it comes back. -/
theorem validate_iff_tally_largest :
    Tally 1 [⟨0, 1, 9223372036854775807, none⟩] 9223372036854775807 ∧
      ¬Tally 1 [⟨1, 1, 9223372036854775807, none⟩, ⟨0, 0, 1, none⟩, ⟨0, 2, 0, none⟩]
        9223372036854775806 := by
  constructor
  · exact (validate_iff_tally 1 9223372036854775807 _ (by decide) (by decide) (by decide)).mp
      (by decide)
  · intro tally
    have valid := (validate_iff_tally 1 9223372036854775806 _ (by decide) (by decide)
      (by decide)).mpr tally
    exact absurd valid (by decide)

end MqTree.Edit
