namespace MqTree

/-- Inserts `x` behind every element that is not larger. -/
def insertSorted {α : Type} (lt : α → α → Bool) (x : α) : List α → List α
  | [] => [x]
  | y :: ys => if lt x y then x :: y :: ys else y :: insertSorted lt x ys

@[simp] theorem mem_insertSorted {α : Type} (lt : α → α → Bool) (x a : α) (ys : List α) :
    a ∈ insertSorted lt x ys ↔ a = x ∨ a ∈ ys := by
  induction ys with
  | nil => simp [insertSorted]
  | cons y ys ih =>
      simp only [insertSorted]
      split
      · simp
      · simp only [List.mem_cons, ih]
        constructor
        · rintro (h | h | h) <;> simp [h]
        · rintro (h | h | h) <;> simp [h]

def sortedBy {α : Type} (lt : α → α → Bool) (xs : List α) : List α :=
  xs.foldl (fun sorted x => insertSorted lt x sorted) []

theorem mem_foldl_insertSorted {α : Type} (lt : α → α → Bool) (a : α) (xs ys : List α) :
    a ∈ xs.foldl (fun sorted x => insertSorted lt x sorted) ys ↔ a ∈ xs ∨ a ∈ ys := by
  induction xs generalizing ys with
  | nil => simp
  | cons x xs ih =>
      simp only [List.foldl_cons, ih, mem_insertSorted, List.mem_cons]
      constructor
      · rintro (h | h | h) <;> simp [h]
      · rintro ((h | h) | h) <;> simp [h]

@[simp] theorem mem_sortedBy {α : Type} (lt : α → α → Bool) (a : α) (xs : List α) :
    a ∈ sortedBy lt xs ↔ a ∈ xs := by
  simp [sortedBy, mem_foldl_insertSorted]

end MqTree
