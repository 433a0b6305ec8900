import MqTree.Proofs.Edit.Survive
import MqTree.Proofs.Lexer.Excerpt

namespace MqTree.Edit

open Text

/-- An edit with as many bytes as it makes room for. -/
def Full (e : Edit) : Prop :=
  ∃ bytes, e.text = some bytes ∧ (bytes.size : Int) = e.newEnd.toInt - e.start.toInt

section

variable {e : Edit} {text : Text}

theorem Full.of_textFits {size : Int} (inside : e.Inside size) {bytes : Text}
    (given : e.text = some bytes) (short : bytes.size < 2 ^ 63) (fits : e.textFits = true) :
    e.Full := by
  refine ⟨bytes, given, ?_⟩
  rw [textFits, given, beq_iff_eq] at fits
  have start := inside.start
  have newEnd := inside.newEnd
  have below := e.newEnd.toInt_lt
  have count := congrArg Int64.toInt fits
  rw [Int64.toInt_ofNat_of_lt short, Int64.toInt_sub, Int.bmod_eq_of_le (by omega) (by omega)]
    at count
  exact count

variable (inside : e.Inside text.size) (full : e.Full)

include inside

theorem getElem?_splice_before {i : Nat} (before : (i : Int) < e.start.toInt) :
    (splice text e)[i]? = text[i]? := by
  have oldEnd := inside.oldEnd
  have size := inside.size
  have room : i < (text.extract 0 e.start.toInt.toNat).size := by
    rw [Array.size_extract]
    omega
  rw [splice, Array.append_assoc, Array.getElem?_append_left room, Array.getElem?_extract,
    if_pos (by omega), Nat.zero_add]

include full

theorem size_splice : ((splice text e).size : Int) = text.size + e.growth := by
  obtain ⟨bytes, given, count⟩ := full
  have start := inside.start
  have oldEnd := inside.oldEnd
  have newEnd := inside.newEnd
  have size := inside.size
  rw [splice, given, Array.size_append, Array.size_append, Array.size_extract, Array.size_extract,
    Option.getD_some, growth]
  omega

theorem getElem?_splice_behind {i j : Nat} (behind : e.oldEnd.toInt ≤ i)
    (moved : (j : Int) = i + e.growth) : (splice text e)[j]? = text[i]? := by
  obtain ⟨bytes, given, count⟩ := full
  have start := inside.start
  have oldEnd := inside.oldEnd
  have newEnd := inside.newEnd
  have size := inside.size
  have front : (text.extract 0 e.start.toInt.toNat ++ e.text.getD #[]).size =
      e.newEnd.toInt.toNat := by
    rw [given, Option.getD_some, Array.size_append, Array.size_extract]
    omega
  unfold growth at moved
  rw [splice, Array.getElem?_append_right (by rw [front]; omega), front, getElem?_extract_eq,
    show e.oldEnd.toInt.toNat + (j - e.newEnd.toInt.toNat) = i by omega]
  split
  · rfl
  · rw [Array.getElem?_eq_none]
    omega

end

theorem Carries.agree {size start stop final new : Int} {edits : List Edit}
    (carries : Carries size start stop edits final new) {text : Text} (sized : size = text.size)
    (nonneg : 0 ≤ start) (order : start ≤ stop) (full : ∀ e ∈ edits, e.Full) :
    text.Agree start.toNat (edits.foldl splice text) new.toNat (stop - start).toNat := by
  induction carries generalizing text with
  | done size start stop => exact .refl text _ _
  | @moved size start stop final new e rest inside behind later ih =>
      subst sized
      have own := full e List.mem_cons_self
      have first := inside.start
      have newEnd := inside.newEnd
      have grown := size_splice inside own
      have next := ih grown.symm (by unfold growth; omega) (by omega)
        fun other member => full other (List.mem_cons_of_mem e member)
      rw [show stop + e.growth - (start + e.growth) = stop - start by omega] at next
      refine Agree.trans (fun k below => ?_) next
      exact (getElem?_splice_behind inside own (by omega) (by unfold growth; omega)).symm
  | @kept size start stop final new e rest inside before later ih =>
      subst sized
      have own := full e List.mem_cons_self
      have grown := size_splice inside own
      have next := ih grown.symm nonneg order
        fun other member => full other (List.mem_cons_of_mem e member)
      refine Agree.trans (fun k below => ?_) next
      exact (getElem?_splice_before inside (by omega)).symm

end MqTree.Edit
