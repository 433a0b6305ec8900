import MqTree.Proofs.Edit.Splice

namespace MqTree.Edit

/-! Batches of edits: when they are applied, what they make of a text, and that
two batches one behind the other are one batch. -/

variable {text mid out : Text} {edits front back : List Edit}

theorem isSome_of_missingText? {index : Nat}
    (none : missingText? index edits = none) : ∀ e ∈ edits, e.text.isSome = true := by
  induction edits generalizing index with
  | nil => exact fun _ member => absurd member List.not_mem_nil
  | cons e rest ih =>
      rw [missingText?] at none
      split at none
      · contradiction
      next given =>
        intro other member
        rcases List.mem_cons.mp member with rfl | later
        · rw [Bool.not_eq_true, Option.isNone_eq_false_iff] at given
          exact given
        · exact ih none other later

theorem validate_of_sizeAfter {size final : Int64}
    (checked : sizeAfter 0 size edits = .ok final) : validate size edits final = .ok () := by
  unfold validate
  rw [checked]
  exact if_pos rfl

theorem sizeAfter_index {index other : Nat} {size final : Int64}
    (checked : sizeAfter index size edits = .ok final) :
    sizeAfter other size edits = .ok final := by
  induction edits generalizing index other size with
  | nil => exact checked
  | cons e rest ih =>
      rw [sizeAfter] at checked ⊢
      split at checked
      · contradiction
      next inside =>
        split at checked
        · contradiction
        next fits =>
          rw [if_neg inside, if_neg fits]
          exact ih checked

theorem validate_append {size mid final : Int64}
    (first : validate size front mid = .ok ()) (second : validate mid back final = .ok ()) :
    validate size (front ++ back) final = .ok () := by
  refine validate_of_sizeAfter ?_
  rw [sizeAfter_append, validate_ok first]
  exact sizeAfter_index (validate_ok second)

theorem applyAll_ok (applied : applyAll text edits = .ok out) :
    (∀ e ∈ edits, e.text.isSome = true) ∧ out = edits.foldl splice text ∧
      ∃ final, sizeAfter 0 (Int64.ofNat text.size) edits = .ok final := by
  unfold applyAll at applied
  cases missing : missingText? 0 edits with
  | some error =>
      rw [missing] at applied
      contradiction
  | none =>
      simp only [missing, bind, Except.bind, pure, Except.pure] at applied
      split at applied
      · contradiction
      next checked =>
        refine ⟨isSome_of_missingText? missing, (Except.ok.inj applied).symm, ?_⟩
        exact ⟨_, validate_ok checked⟩

theorem missingText?_eq_none {index : Nat} (given : ∀ e ∈ edits, e.text.isSome = true) :
    missingText? index edits = none := by
  induction edits generalizing index with
  | nil => rfl
  | cons e rest ih =>
      have own := given e List.mem_cons_self
      have some : ¬e.text.isNone = true := by
        rw [Option.isNone_eq_false_iff.mpr own]
        exact Bool.false_ne_true
      rw [missingText?, if_neg some]
      exact ih fun other member => given other (List.mem_cons_of_mem e member)

theorem foldl_delta_of_sizeAfter {index : Nat} {size final : Int64}
    (checked : sizeAfter index size edits = .ok final) :
    edits.foldl (fun size e => size + e.delta) size = final := by
  induction edits generalizing index size with
  | nil => exact Except.ok.inj checked
  | cons e rest ih =>
      obtain ⟨_, _, later⟩ := sizeAfter_cons checked
      exact ih later

theorem applyAll_of_sizeAfter (given : ∀ e ∈ edits, e.text.isSome = true) {final : Int64}
    (checked : sizeAfter 0 (Int64.ofNat text.size) edits = .ok final) :
    applyAll text edits = .ok (edits.foldl splice text) := by
  unfold applyAll
  rw [missingText?_eq_none given]
  simp only [foldl_delta_of_sizeAfter checked, validate_of_sizeAfter checked]
  rfl

/-- How edits make a text into another. Each is an edit of the text that those
before it made, which is short enough to be counted in, and brings as many bytes
as it makes room for. -/
inductive Rewrites : Text → List Edit → Text → Prop
  | done (text : Text) : Rewrites text [] text
  | edit {text out : Text} {e : Edit} {rest : List Edit} (short : text.size < 2 ^ 63)
      (inside : e.Inside text.size) (full : e.Full) (later : Rewrites (splice text e) rest out) :
      Rewrites text (e :: rest) out

theorem ofNat_size_splice {e : Edit} (inside : e.Inside text.size) (full : e.Full) :
    Int64.ofNat text.size + e.delta = Int64.ofNat (splice text e).size := by
  have grown := size_splice inside full
  rw [growth] at grown
  rw [← Int64.ofInt_eq_ofNat, ← Int64.ofInt_eq_ofNat, grown, Int64.ofInt_add, Int64.ofInt_sub,
    Int64.ofInt_toInt, Int64.ofInt_toInt, delta]

theorem lt_of_ofNat_nonneg {n : Nat} (small : n < 2 ^ 64) (nonneg : 0 ≤ (Int64.ofNat n).toInt) :
    n < 2 ^ 63 := by
  have size : Int64.size = 2 ^ 64 := rfl
  rw [Int64.toInt_ofNat', Int.bmod_def, size] at nonneg
  split at nonneg <;> omega

/-- Edits that pass the check rewrite the text. A size that is too large counts
as negative, and then no further edit passes. -/
theorem rewrites_of_sizeAfter {index : Nat} {final : Int64} (small : text.size < 2 ^ 64)
    (given : ∀ e ∈ edits, e.text.isSome = true)
    (short : ∀ e ∈ edits, ∀ bytes ∈ e.text, bytes.size < 2 ^ 63)
    (checked : sizeAfter index (Int64.ofNat text.size) edits = .ok final) :
    Rewrites text edits (edits.foldl splice text) := by
  induction edits generalizing text index with
  | nil => exact .done text
  | cons e rest ih =>
      obtain ⟨inside, fits, later⟩ := sizeAfter_cons checked
      obtain ⟨bytes, own⟩ := Option.isSome_iff_exists.mp (given e List.mem_cons_self)
      have start := inside.start
      have oldEnd := inside.oldEnd
      have size := inside.size
      have counted := lt_of_ofNat_nonneg small (by omega)
      have within : e.Inside text.size := Int64.toInt_ofNat_of_lt counted ▸ inside
      have full := Full.of_textFits inside own (short e List.mem_cons_self bytes own) fits
      have grown := size_splice within full
      rw [growth] at grown
      have newEnd := e.newEnd.toInt_lt
      rw [ofNat_size_splice within full] at later
      exact .edit counted within full (ih (by omega)
        (fun other member => given other (List.mem_cons_of_mem e member))
        (fun other member => short other (List.mem_cons_of_mem e member)) later)

theorem Inside.inRange {e : Edit} {size : Int64} (inside : e.Inside size.toInt) :
    e.inRange size = true := by
  simp only [Edit.inRange, Bool.and_eq_true, decide_eq_true_iff, Int64.le_iff_toInt_le]
  exact ⟨⟨⟨inside.start, inside.oldEnd⟩, inside.size⟩, inside.newEnd⟩

theorem Full.textFits {e : Edit} (full : e.Full) : e.textFits = true := by
  obtain ⟨bytes, given, count⟩ := full
  rw [Edit.textFits, given, beq_iff_eq, ← Int64.ofInt_eq_ofNat, count, Int64.ofInt_sub,
    Int64.ofInt_toInt, Int64.ofInt_toInt]

namespace Rewrites

theorem sizeAfter_eq {index : Nat} (rewrites : Rewrites text edits out) :
    sizeAfter index (Int64.ofNat text.size) edits = .ok (Int64.ofNat out.size) := by
  induction rewrites generalizing index with
  | done text => rfl
  | @edit text out e rest short inside full later ih =>
      have within : e.Inside (Int64.ofNat text.size).toInt :=
        (Int64.toInt_ofNat_of_lt short).symm ▸ inside
      rw [sizeAfter, within.inRange, full.textFits, ofNat_size_splice inside full]
      exact ih

theorem full (rewrites : Rewrites text edits out) : ∀ e ∈ edits, e.Full := by
  induction rewrites with
  | done text => exact fun _ member => absurd member List.not_mem_nil
  | edit short inside full later ih => exact List.forall_mem_cons.mpr ⟨full, ih⟩

theorem foldl_splice (rewrites : Rewrites text edits out) : edits.foldl splice text = out := by
  induction rewrites with
  | done text => rfl
  | edit short inside full later ih => exact ih

theorem size_lt (rewrites : Rewrites text edits out) (small : text.size < 2 ^ 64) :
    out.size < 2 ^ 64 := by
  induction rewrites with
  | done text => exact small
  | @edit text out e rest short inside full later ih =>
      have grown := size_splice inside full
      have start := inside.start
      have oldEnd := inside.oldEnd
      have newEnd := e.newEnd.toInt_lt
      rw [growth] at grown
      exact ih (by omega)

theorem append_iff :
    Rewrites text (front ++ back) out ↔ ∃ mid, Rewrites text front mid ∧ Rewrites mid back out := by
  constructor
  · intro whole
    induction front generalizing text with
    | nil => exact ⟨text, .done text, whole⟩
    | cons e rest ih =>
        cases whole with
        | edit short inside full later =>
            obtain ⟨mid, first, second⟩ := ih later
            exact ⟨mid, .edit short inside full first, second⟩
  · rintro ⟨mid, first, second⟩
    induction first with
    | done text => exact second
    | edit short inside full later ih => exact .edit short inside full (ih second)

end Rewrites

/-- Edits are applied exactly if they rewrite the text, and then to what they
make of it. -/
theorem applyAll_iff (small : text.size < 2 ^ 64)
    (short : ∀ e ∈ edits, ∀ bytes ∈ e.text, bytes.size < 2 ^ 63) :
    applyAll text edits = .ok out ↔ Rewrites text edits out := by
  constructor
  · intro applied
    obtain ⟨given, rfl, final, checked⟩ := applyAll_ok applied
    exact rewrites_of_sizeAfter small given short checked
  · intro rewrites
    have given : ∀ e ∈ edits, e.text.isSome = true := by
      intro e member
      obtain ⟨bytes, own, _⟩ := rewrites.full e member
      rw [own]
      rfl
    rw [applyAll_of_sizeAfter given rewrites.sizeAfter_eq, rewrites.foldl_splice]

structure Counted (text : Text) (edits : List Edit) : Prop where
  old : text.size < 2 ^ 63
  short : ∀ e ∈ edits, ∀ bytes ∈ e.text, bytes.size < 2 ^ 63

theorem Counted.applyAll_iff (counted : Counted text edits) :
    applyAll text edits = .ok out ↔ Rewrites text edits out :=
  Edit.applyAll_iff (Nat.lt_trans counted.old (by decide)) counted.short

/-- Two batches one behind the other make what they make as one. What is applied
has been in order all the way, to the size that was made; and what is in order
and has its texts is applied, to the size that was asked for. -/
theorem batches_compose :
    (∀ text front back, Counted text (front ++ back) → ∀ out,
      applyAll text (front ++ back) = .ok out ↔
        ∃ mid, applyAll text front = .ok mid ∧ applyAll mid back = .ok out) ∧
    (∀ text edits, Counted text edits → ∀ out, applyAll text edits = .ok out →
      validate (Int64.ofNat text.size) edits (Int64.ofNat out.size) = .ok () ∧
        Rewrites text edits out) ∧
    (∀ text edits, Counted text edits → (∀ e ∈ edits, e.text.isSome = true) → ∀ n < 2 ^ 63,
      validate (Int64.ofNat text.size) edits (Int64.ofNat n) = .ok () →
        ∃ out, applyAll text edits = .ok out ∧ out.size = n) := by
  refine ⟨?_, ?_, ?_⟩
  · intro text front back counted out
    obtain ⟨first, second⟩ := List.forall_mem_append.mp counted.short
    have small : text.size < 2 ^ 64 := Nat.lt_trans counted.old (by decide)
    rw [counted.applyAll_iff, Rewrites.append_iff]
    refine exists_congr fun mid => ?_
    rw [applyAll_iff small first]
    exact and_congr_right fun made => (applyAll_iff (made.size_lt small) second).symm
  · intro text edits counted out applied
    have rewrites := counted.applyAll_iff.mp applied
    exact ⟨validate_of_sizeAfter rewrites.sizeAfter_eq, rewrites⟩
  · intro text edits counted given n limit valid
    have small : text.size < 2 ^ 64 := Nat.lt_trans counted.old (by decide)
    have checked := validate_ok valid
    have rewrites := rewrites_of_sizeAfter small given counted.short checked
    refine ⟨_, counted.applyAll_iff.mpr rewrites, ?_⟩
    -- Both are the size that the check came to, and both can be counted.
    have same := Except.ok.inj (rewrites.sizeAfter_eq.symm.trans checked)
    have large := congrArg Int64.toInt same
    rw [Int64.toInt_ofNat_of_lt limit] at large
    have room := lt_of_ofNat_nonneg (rewrites.size_lt small) (by omega)
    rw [Int64.toInt_ofNat_of_lt room] at large
    exact Int.ofNat.inj large

/-- A word is put in front, and then all of the old text is taken out behind it. -/
theorem batches_compose_prepend : ∃ mid out,
    applyAll (Text.ofString "x") [⟨0, 0, 4, some (Text.ofString "let ")⟩] = .ok mid ∧
      applyAll mid [⟨4, 5, 4, some #[]⟩] = .ok out ∧
      validate 1 [⟨0, 0, 4, some (Text.ofString "let ")⟩, ⟨4, 5, 4, some #[]⟩] 4 = .ok () ∧
      out.size = 4 := by
  obtain ⟨composes, _, fulfils⟩ := batches_compose
  have counted : Counted (Text.ofString "x")
      ([⟨0, 0, 4, some (Text.ofString "let ")⟩] ++ [⟨4, 5, 4, some #[]⟩]) :=
    ⟨by decide, by decide⟩
  have valid : validate 1 [⟨0, 0, 4, some (Text.ofString "let ")⟩, ⟨4, 5, 4, some #[]⟩] 4 =
      .ok () := by
    decide
  obtain ⟨out, applied, size⟩ := fulfils _ _ counted (by decide) 4 (by decide) valid
  obtain ⟨mid, first, second⟩ := (composes _ _ _ counted out).mp applied
  exact ⟨mid, out, first, second, valid, size⟩

end MqTree.Edit
