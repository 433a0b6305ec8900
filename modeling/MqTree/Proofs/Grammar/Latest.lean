import Mathlib.Data.List.Basic

namespace MqTree

/-! Values that are written down for keys, the latest first. A value that is
written again for the same key hides the one before it. -/

section

variable {α β γ : Type}

/-- Whether a value is the one that was written last for a key. -/
def Latest (entries : List (α × β)) (key : α) (value : β) : Prop :=
  ∃ late early, entries = late ++ (key, value) :: early ∧ ∀ entry ∈ late, entry.1 ≠ key

variable {early recent : List (α × β)} {key : α} {value other : β}

theorem exists_latest (member : (key, value) ∈ early) : ∃ v, Latest early key v := by
  induction early with
  | nil => contradiction
  | cons entry early ih =>
      obtain ⟨k, v⟩ := entry
      by_cases same : k = key
      · refine ⟨v, [], early, ?_, fun _ none => absurd none List.not_mem_nil⟩
        rw [same, List.nil_append]
      · have below : (key, value) ∈ early := by
          rcases List.mem_cons.mp member with here | below
          · exact absurd (congrArg Prod.fst here).symm same
          · exact below
        obtain ⟨v', late, before, rfl, others⟩ := ih below
        exact ⟨v', (k, v) :: late, before, rfl, List.forall_mem_cons.mpr ⟨same, others⟩⟩

theorem Latest.mem_recent (latest : Latest (recent ++ early) key value)
    (member : (key, other) ∈ recent) : (key, value) ∈ recent := by
  obtain ⟨late, before, split, others⟩ := latest
  rcases List.append_eq_append_iff.mp split with ⟨gap, rfl, rest⟩ | ⟨gap, rfl, rest⟩
  · exact absurd rfl (others _ (List.mem_append_left gap member))
  · cases gap with
    | nil =>
        rw [List.append_nil] at member
        exact absurd rfl (others _ member)
    | cons entry gap =>
        obtain ⟨rfl, _⟩ := List.cons.inj rest
        exact List.mem_append_right late List.mem_cons_self

theorem latest_append_iff (member : (key, value) ∈ recent)
    (only : ∀ v, (key, v) ∈ recent → v = value) :
    Latest (recent ++ early) key other ↔ other = value := by
  constructor
  · intro latest
    exact only other (latest.mem_recent member)
  · rintro rfl
    obtain ⟨v, latest⟩ := exists_latest (List.mem_append_left early member)
    exact only v (latest.mem_recent member) ▸ latest

variable {writes : γ → List (α × β)} {asked : List γ}

theorem exists_recent (writes : γ → List (α × β)) (asked : List γ) (early : List (α × β)) :
    ∃ recent, asked.foldl (fun entries x => writes x ++ entries) early = recent ++ early ∧
      ∀ entry, entry ∈ recent ↔ ∃ x ∈ asked, entry ∈ writes x := by
  induction asked generalizing early with
  | nil => exact ⟨[], rfl, by simp⟩
  | cons x asked ih =>
      obtain ⟨recent, all, mem_iff⟩ := ih (writes x ++ early)
      refine ⟨recent ++ writes x, ?_, fun entry => ?_⟩
      · rw [List.foldl_cons, all, List.append_assoc]
      · rw [List.mem_append, mem_iff, List.exists_mem_cons_iff, Or.comm]

/-- Where all that is written is right, the latest value for a key that something
is written for is right as well, whatever was written earlier. -/
theorem latest_foldl_iff {right : α → β}
    (all : ∀ x ∈ asked, ∀ entry ∈ writes x, entry.2 = right entry.1)
    (written : ∃ x ∈ asked, (key, right key) ∈ writes x) :
    Latest (asked.foldl (fun entries x => writes x ++ entries) early) key value ↔
      value = right key := by
  obtain ⟨recent, whole, mem_iff⟩ := exists_recent writes asked early
  rw [whole]
  refine latest_append_iff ((mem_iff _).mpr written) fun v member => ?_
  obtain ⟨x, inside, wrote⟩ := (mem_iff _).mp member
  exact all x inside _ wrote

end

end MqTree
