namespace MqTree

/-- A set of terminals by number. There are at most 128 of them. -/
abbrev TermSet := BitVec 128

namespace TermSet

def limit : Nat := 128

def empty : TermSet := 0#128

def single (id : Nat) : TermSet := BitVec.twoPow 128 id

def has (s : TermSet) (id : Int) : Bool := 0 ≤ id && s.getLsbD id.toNat

def insert? (s : TermSet) (id : Int) : Option TermSet :=
  if 0 ≤ id ∧ id < limit then some (s ||| single id.toNat) else none

def ofList? (ids : List Int) : Option TermSet :=
  ids.foldlM insert? empty

def union (s t : TermSet) : TermSet := s ||| t

def inter (s t : TermSet) : TermSet := s &&& t

def isEmpty (s : TermSet) : Bool := s == empty

@[simp] theorem has_union (s t : TermSet) (id : Int) :
    (s.union t).has id = (s.has id || t.has id) := by
  simp [has, union, Bool.and_or_distrib_left]

@[simp] theorem has_inter (s t : TermSet) (id : Int) :
    (s.inter t).has id = (s.has id && t.has id) := by
  simp only [has, inter, BitVec.getLsbD_and]
  cases decide (0 ≤ id) <;> simp

@[simp] theorem has_empty (id : Int) : empty.has id = false := by
  simp [has, empty]

theorem has_or {s t : TermSet} {id : Int} :
    (s ||| t).has id = true ↔ s.has id = true ∨ t.has id = true := by
  rw [← union, has_union, Bool.or_eq_true]

theorem has_eq_false_of_apart {s t : TermSet} {id : Int} (apart : s &&& t = empty)
    (member : s.has id = true) : t.has id = false := by
  have both := has_inter s t id
  rwa [inter, apart, has_empty, member, Bool.true_and, eq_comm] at both

def ids (s : TermSet) : List Nat := (List.range limit).filter s.getLsbD

theorem mem_ids {s : TermSet} {id : Nat} : id ∈ s.ids ↔ s.has id = true := by
  simp only [ids, List.mem_filter, List.mem_range, has]
  constructor
  · rintro ⟨_, h⟩
    simpa using h
  · intro h
    have member : s.getLsbD id = true := by simpa using h
    exact ⟨BitVec.lt_of_getLsbD member, member⟩

end TermSet

end MqTree
