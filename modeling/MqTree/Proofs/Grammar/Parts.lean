import Mathlib.Data.List.Basic
import MqTree.Proofs.Grammar.Law

namespace MqTree

namespace Expr

def inners : Expr → List Expr
  | .tok _ _ | .leaf _ _ | .ref _ => []
  | .seq es | .choice es | .ordered es => es
  | .opt body | .rep body _ | .sepBy body _ _ | .field _ body | .immediate body | .sameLine body
  | .stmts _ body _ | .binary _ body _ | .unary _ _ body => [body]
  | .suffixed head _ suffixes => head :: suffixes.map Suffix.tail

theorem sizeOf_lt_of_mem_inners {e p : Expr} (member : p ∈ e.inners) : sizeOf p < sizeOf e := by
  cases e with
  | seq es | choice es | ordered es =>
      have smaller := List.sizeOf_lt_of_mem (show p ∈ es from member)
      simp only [seq.sizeOf_spec, choice.sizeOf_spec, ordered.sizeOf_spec]
      omega
  | suffixed head many suffixes =>
      rcases List.mem_cons.mp member with rfl | tail
      · simp only [suffixed.sizeOf_spec]
        omega
      · obtain ⟨x, inside, rfl⟩ := List.mem_map.mp tail
        have smaller := List.sizeOf_lt_of_mem inside
        have own : sizeOf x.tail < sizeOf x := by
          cases x
          simp only [Suffix.mk.sizeOf_spec]
          omega
        simp only [suffixed.sizeOf_spec]
        omega
  | tok | leaf | ref => contradiction
  | _ =>
      obtain rfl := List.mem_singleton.mp member
      simp only [opt.sizeOf_spec, rep.sizeOf_spec, sepBy.sizeOf_spec, field.sizeOf_spec,
        immediate.sizeOf_spec, sameLine.sizeOf_spec, stmts.sizeOf_spec, binary.sizeOf_spec,
        unary.sizeOf_spec]
      omega

theorem by_inners {P : Expr → Prop} (step : ∀ e, (∀ p ∈ e.inners, P p) → P e) (e : Expr) : P e :=
  step e fun p _ => by_inners step p
termination_by sizeOf e
decreasing_by exact sizeOf_lt_of_mem_inners (by assumption)

theorem partsOfAll_eq (es : List Expr) : partsOfAll es = es.flatMap parts := by
  induction es with
  | nil => rfl
  | cons e es ih => rw [partsOfAll, ih, List.flatMap_cons]

theorem partsOfTails_eq (suffixes : List (Suffix Expr)) :
    partsOfTails suffixes = (suffixes.map Suffix.tail).flatMap parts := by
  induction suffixes with
  | nil => rfl
  | cons x rest ih =>
      obtain ⟨kind, headField, tail⟩ := x
      rw [partsOfTails, ih, List.map_cons, List.flatMap_cons]

theorem parts_eq (e : Expr) : e.parts = e :: e.inners.flatMap parts := by
  cases e with
  | seq es | choice es | ordered es => simp only [parts, inners, partsOfAll_eq]
  | suffixed head many suffixes =>
      simp only [parts, inners, partsOfTails_eq, List.flatMap_cons]
  | _ => simp only [parts, inners, List.flatMap_cons, List.flatMap_nil, List.append_nil]

theorem mem_parts_self (e : Expr) : e ∈ e.parts := by
  rw [parts_eq]
  exact List.mem_cons_self

theorem mem_parts_of_mem_inners {e p : Expr} (member : p ∈ e.inners) : p ∈ e.parts := by
  rw [parts_eq]
  exact List.mem_cons_of_mem e (List.mem_flatMap.mpr ⟨p, member, mem_parts_self p⟩)

theorem mem_parts_trans {e p q : Expr} (inner : q ∈ p.parts) (outer : p ∈ e.parts) :
    q ∈ e.parts := by
  induction e using by_inners with
  | step e ih =>
      rw [parts_eq] at outer ⊢
      rcases List.mem_cons.mp outer with rfl | below
      · rwa [parts_eq] at inner
      · obtain ⟨middle, direct, deeper⟩ := List.mem_flatMap.mp below
        exact List.mem_cons_of_mem e
          (List.mem_flatMap.mpr ⟨middle, direct, ih middle direct deeper⟩)

theorem parts_subset {e p : Expr} (member : p ∈ e.inners) : p.parts ⊆ e.parts :=
  fun _ inside => mem_parts_trans inside (mem_parts_of_mem_inners member)

end Expr

namespace Table

def Part (t : Table) (e : Expr) : Prop := ∃ r ∈ t.rules, e ∈ r.body.parts

variable {t : Table}

theorem part_body {name : String} {r : Rule} (found : t.rule? name = some r) : t.Part r.body :=
  ⟨r, (rule?_eq_some found).1, r.body.mem_parts_self⟩

theorem Part.inner {e p : Expr} (part : t.Part e) (member : p ∈ e.inners) : t.Part p := by
  obtain ⟨r, rule, inside⟩ := part
  exact ⟨r, rule, Expr.mem_parts_trans (Expr.mem_parts_of_mem_inners member) inside⟩

theorem Part.only {e p : Expr} (part : t.Part e) (inners : e.inners = [p]) : t.Part p :=
  part.inner (inners ▸ List.mem_singleton_self p)

theorem Part.head {head : Expr} {many : Bool} {all : List (Suffix Expr)}
    (part : t.Part (.suffixed head many all)) : t.Part head :=
  part.inner List.mem_cons_self

theorem Part.tail {head : Expr} {many : Bool} {all : List (Suffix Expr)} {x : Suffix Expr}
    (part : t.Part (.suffixed head many all)) (member : x ∈ all) : t.Part x.tail :=
  part.inner (List.mem_cons_of_mem _ (List.mem_map_of_mem member))

end Table

end MqTree
