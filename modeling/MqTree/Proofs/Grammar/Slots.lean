import MqTree.Grammar.Catalog
import MqTree.Grammar.Mq
import MqTree.Proofs.Grammar.Accepted
import MqTree.Proofs.Grammar.MqLaw

namespace MqTree

namespace TypeRef

@[simp] theorem mem_inOrder {ref : TypeRef} {refs : List TypeRef} : ref ∈ inOrder refs ↔ ref ∈ refs := by
  rw [inOrder, mem_sortedBy, List.mem_eraseDups]

end TypeRef

namespace Table

variable {t : Table}

def Makes (t : Table) (ref : TypeRef) : Prop := ∃ content ∈ t.contents, content.owner = ref

def Holds (t : Table) (owner : TypeRef) (slot : Slot) : Prop :=
  ∃ content ∈ t.contents, content.owner = owner ∧ slot ∈ content.slots

theorem makes_iff {ref : TypeRef} : t.Makes ref ↔ ∃ entry ∈ t.catalog, entry.ref = ref := by
  constructor
  · rintro ⟨content, member, rfl⟩
    exact ⟨_, List.mem_map_of_mem (TypeRef.mem_inOrder.mpr (List.mem_map_of_mem member)), rfl⟩
  · rintro ⟨entry, member, rfl⟩
    obtain ⟨ref, listed, rfl⟩ := List.mem_map.mp member
    exact List.mem_map.mp (TypeRef.mem_inOrder.mp listed)

/-- The entry of a kind lists all that can stand in nodes of it. -/
theorem Holds.listed {owner : TypeRef} {slot : Slot} (holds : t.Holds owner slot)
    {entry : NodeType} (member : entry ∈ t.catalog) (own : entry.ref = owner) :
    (slot.field ≠ "" → ∃ refs, (slot.field, refs) ∈ entry.fields ∧ slot.ref ∈ refs) ∧
      (slot.field = "" → slot.ref.named = true → slot.ref ∈ entry.children) := by
  obtain ⟨ref, listed, rfl⟩ := List.mem_map.mp member
  obtain rfl : ref = owner := own
  obtain ⟨content, inside, same, here⟩ := holds
  have all : slot ∈ (t.contents.filter (·.owner == ref)).flatMap Content.slots :=
    List.mem_flatMap.mpr ⟨content, List.mem_filter.mpr ⟨inside, beq_iff_eq.mpr same⟩, here⟩
  constructor
  · intro named
    refine ⟨_, List.mem_map.mpr ⟨slot.field, ?_, rfl⟩, ?_⟩
    · rw [mem_sortedBy, List.mem_eraseDups, List.mem_filter]
      exact ⟨List.mem_map_of_mem all, bne_iff_ne.mpr named⟩
    · rw [TypeRef.mem_inOrder]
      exact List.mem_map_of_mem (List.mem_filter.mpr ⟨all, beq_self_eq_true _⟩)
  · intro unnamed visible
    refine TypeRef.mem_inOrder.mpr (List.mem_map_of_mem (List.mem_filter.mpr ⟨all, ?_⟩))
    rw [unnamed, visible]
    rfl

theorem mem_contents_of_rule {r : Rule} {content : Content} (rule : r ∈ t.rules)
    (member : content ∈ t.contentsOfRule r) : content ∈ t.contents :=
  List.mem_append_left _ (List.mem_flatMap.mpr ⟨r, rule, member⟩)

theorem mem_contents_of_visible {name : String} {r : Rule} (found : t.rule? name = some r)
    (visible : r.hidden = false) : ⟨⟨r.nodeKind, true⟩, t.slots "" r.body⟩ ∈ t.contents := by
  apply mem_contents_of_rule (rule?_eq_some found).1
  rw [contentsOfRule, visible]
  exact List.mem_append_left _ (List.mem_singleton_self _)

theorem Part.mem_contents {e : Expr} {content : Content} (part : t.Part e)
    (member : content ∈ t.synthesized e) : content ∈ t.contents := by
  obtain ⟨r, rule, inside⟩ := part
  apply mem_contents_of_rule rule
  exact List.mem_append_right _ (List.mem_flatMap.mpr ⟨e, inside, member⟩)

theorem makes_symbol {sym : String} (known : sym ∈ t.symbols) (differs : sym ≠ endSymbol) :
    t.Makes ⟨sym, isNamedSymbol sym⟩ := by
  refine ⟨⟨⟨sym, isNamedSymbol sym⟩, []⟩, List.mem_append_right _ ?_, rfl⟩
  exact List.mem_map.mpr ⟨sym, List.mem_filter.mpr ⟨known, bne_iff_ne.mpr differs⟩, rfl⟩

end Table

namespace Expr

mutual

def splices : Expr → List String
  | .tok _ _ | .leaf _ _ => []
  | .ref name => [name]
  | .seq items => splicesOfAll items
  | .choice alts | .ordered alts => splicesOfAll alts
  | .opt body | .rep body _ | .sepBy body _ _ | .field _ body | .immediate body
  | .sameLine body | .stmts _ body _ | .suffixed body _ _ | .binary _ body _ | .unary _ _ body =>
      splices body

def splicesOfAll : List Expr → List String
  | [] => []
  | e :: es => splices e ++ splicesOfAll es

end

mutual

theorem slots_congr {rule rule' : String → String → List Slot} (field : String) (e : Expr)
    (same : ∀ field, ∀ name ∈ e.splices, rule field name = rule' field name) :
    e.slots rule field = e.slots rule' field := by
  match e with
  | .tok .. | .leaf .. => simp only [slots]
  | .ref name => exact same field name (by rw [splices]; exact List.mem_singleton_self name)
  | .seq es | .choice es | .ordered es =>
      rw [splices] at same
      simp only [slots, slotsOfAll_congr field es same]
  | .opt body | .rep body _ | .sepBy body _ _ | .immediate body | .sameLine body
  | .suffixed body _ _ | .binary _ body _ | .unary _ _ body =>
      rw [splices] at same
      simp only [slots, slots_congr field body same]
  | .field name body | .stmts name body _ =>
      rw [splices] at same
      simp only [slots, slots_congr name body same]

theorem slotsOfAll_congr {rule rule' : String → String → List Slot} (field : String)
    (es : List Expr) (same : ∀ field, ∀ name ∈ splicesOfAll es, rule field name = rule' field name) :
    slotsOfAll rule field es = slotsOfAll rule' field es := by
  match es with
  | [] => rfl
  | e :: es =>
      have here : ∀ field, ∀ name ∈ e.splices, rule field name = rule' field name :=
        fun field name member => same field name (List.mem_append_left _ member)
      have rest : ∀ field, ∀ name ∈ splicesOfAll es, rule field name = rule' field name :=
        fun field name member => same field name (List.mem_append_right _ member)
      rw [slotsOfAll, slotsOfAll, slots_congr field e here, slotsOfAll_congr field es rest]

end

theorem slotsOfAll_eq (rule : String → String → List Slot) (field : String) (es : List Expr) :
    slotsOfAll rule field es = es.flatMap (slots rule field) := by
  induction es with
  | nil => rfl
  | cons e es ih => rw [slotsOfAll, ih, List.flatMap_cons]

end Expr

namespace Table

variable {t : Table}

theorem inline_none {n : Nat} {path : List String} {field name : String}
    (missing : t.rule? name = none) : t.inline (n + 1) path field name = [] := by
  simp only [inline, missing]

theorem inline_visible {n : Nat} {path : List String} {field name : String} {r : Rule}
    (found : t.rule? name = some r) (visible : r.hidden = false) :
    t.inline (n + 1) path field name = [⟨field, r.nodeKind, true⟩] := by
  simp only [inline, found, visible, Bool.not_false, if_true]

theorem inline_hidden {n : Nat} {path : List String} {field name : String} {r : Rule}
    (found : t.rule? name = some r) (hidden : r.hidden = true) :
    t.inline (n + 1) path field name =
      if path.contains name then [] else r.body.slots (t.inline n (name :: path)) field := by
  simp only [inline, found, hidden, Bool.not_true, Bool.false_eq_true, if_false]

structure Layered (t : Table) (rank : String → Nat) : Prop where
  low : ∀ name, rank name ≤ t.rules.length
  below : ∀ {name r}, t.rule? name = some r → r.hidden = true →
    ∀ x ∈ r.body.splices, rank x < rank name

/-- What a rule puts around does not depend on how it is reached. -/
theorem Layered.inline_eq {rank : String → Nat} (layered : t.Layered rank) {n m : Nat}
    {path way : List String} {field name : String} (deep : rank name < n) (deep' : rank name < m)
    (above : ∀ x ∈ path, rank name < rank x) (above' : ∀ x ∈ way, rank name < rank x) :
    t.inline n path field name = t.inline m way field name := by
  induction n generalizing m path way field name with
  | zero => exact absurd deep (Nat.not_lt_zero _)
  | succ n ih =>
      obtain ⟨m, rfl⟩ : ∃ k, m = k + 1 := ⟨m - 1, by omega⟩
      have fresh {way : List String} (above : ∀ x ∈ way, rank name < rank x) :
          way.contains name = false := by
        apply Bool.eq_false_iff.mpr
        intro member
        exact Nat.lt_irrefl _ (above name (List.contains_iff_mem.mp member))
      cases found : t.rule? name with
      | none => rw [inline_none found, inline_none found]
      | some r =>
          cases hidden : r.hidden with
          | false => rw [inline_visible found hidden, inline_visible found hidden]
          | true =>
              rw [inline_hidden found hidden, inline_hidden found hidden, fresh above, fresh above']
              apply Expr.slots_congr
              intro field x member
              have lower := layered.below found hidden x member
              apply ih (by omega) (by omega)
              · exact List.forall_mem_cons.mpr ⟨lower, fun y inside => Nat.lt_trans lower (above y inside)⟩
              · exact List.forall_mem_cons.mpr ⟨lower, fun y inside => Nat.lt_trans lower (above' y inside)⟩

theorem slots_visible {field name : String} {r : Rule} (found : t.rule? name = some r)
    (visible : r.hidden = false) : t.slots field (.ref name) = [⟨field, r.nodeKind, true⟩] :=
  inline_visible found visible

theorem Layered.slots_hidden {rank : String → Nat} (layered : t.Layered rank) {field name : String}
    {r : Rule} (found : t.rule? name = some r) (hidden : r.hidden = true) :
    t.slots field (.ref name) = t.slots field r.body := by
  have start : t.slots field (.ref name) = r.body.slots (t.inline t.rules.length [name]) field :=
    inline_hidden found hidden
  rw [start, slots]
  apply Expr.slots_congr
  intro field x member
  have lower := layered.below found hidden x member
  have low := layered.low name
  apply layered.inline_eq (by omega) (by omega)
  · exact List.forall_mem_singleton.mpr lower
  · exact fun _ none => absurd none List.not_mem_nil

end Table

namespace Expr

variable (t : Table) (level : List String)

mutual

/-- Whether all that an expression puts around takes the field that is in
force, given the hidden rules of which that is so. -/
def even : Expr → Bool
  | .tok _ _ | .leaf _ _ => true
  | .ref name => level.contains name || (t.rule? name).any fun r => !r.hidden
  | .seq items => evenAll items
  | .choice alts | .ordered alts => evenAll alts
  | .opt body | .rep body _ | .immediate body | .sameLine body | .suffixed body _ _
  | .binary _ body _ | .unary _ _ body => even body
  | .sepBy _ _ _ | .field _ _ | .stmts _ _ _ => false

def evenAll : List Expr → Bool
  | [] => true
  | e :: es => even e && evenAll es

end

theorem evenAll_eq_true {es : List Expr} :
    evenAll t level es = true ↔ ∀ e ∈ es, e.even t level = true := by
  induction es with
  | nil => simp [evenAll]
  | cons e es ih => rw [evenAll, Bool.and_eq_true, ih, List.forall_mem_cons]

variable {t level}

mutual

theorem slots_even {n : Nat} {path : List String} (inner : ∀ name field other,
      (Expr.ref name).even t level = true →
        t.inline n path other name = (t.inline n path field name).map ({ · with field := other }))
    (field other : String) (e : Expr) (level_e : e.even t level = true) :
    e.slots (t.inline n path) other =
      (e.slots (t.inline n path) field).map ({ · with field := other }) := by
  match e with
  | .tok .. | .leaf .. => simp only [slots, List.map_cons, List.map_nil]
  | .ref name => exact inner name field other level_e
  | .seq es | .choice es | .ordered es =>
      rw [even] at level_e
      simp only [slots, slotsOfAll_even inner field other es level_e]
  | .opt body | .rep body _ | .immediate body | .sameLine body =>
      rw [even] at level_e
      simp only [slots, slots_even inner field other body level_e]
  | .suffixed body _ suffixes =>
      rw [even] at level_e
      simp only [slots, slots_even inner field other body level_e, List.map_append, List.map_map]
      rfl
  | .binary _ body _ | .unary _ _ body =>
      rw [even] at level_e
      simp only [slots, slots_even inner field other body level_e, List.map_cons]
  | .sepBy .. | .field .. | .stmts .. => simp [even] at level_e

theorem slotsOfAll_even {n : Nat} {path : List String} (inner : ∀ name field other,
      (Expr.ref name).even t level = true →
        t.inline n path other name = (t.inline n path field name).map ({ · with field := other }))
    (field other : String) (es : List Expr) (level_es : evenAll t level es = true) :
    slotsOfAll (t.inline n path) other es =
      (slotsOfAll (t.inline n path) field es).map ({ · with field := other }) := by
  match es with
  | [] => rfl
  | e :: es =>
      rw [evenAll, Bool.and_eq_true] at level_es
      rw [slotsOfAll, slotsOfAll, List.map_append, slots_even inner field other e level_es.1,
        slotsOfAll_even inner field other es level_es.2]

end

end Expr

namespace Table

variable {t : Table} {level : List String}

def Leveled (t : Table) (level : List String) : Prop :=
  ∀ name ∈ level, ∀ r, t.rule? name = some r → r.body.even t level = true

theorem Leveled.inline_even (leveled : t.Leveled level) (n : Nat) (path : List String)
    (name field other : String) (even : (Expr.ref name).even t level = true) :
    t.inline n path other name = (t.inline n path field name).map ({ · with field := other }) := by
  induction n generalizing path name field other with
  | zero => rfl
  | succ n ih =>
      cases found : t.rule? name with
      | none =>
          rw [inline_none found, inline_none found]
          rfl
      | some r =>
          cases hidden : r.hidden with
          | false =>
              rw [inline_visible found hidden, inline_visible found hidden]
              rfl
          | true =>
              have member : name ∈ level := by simpa [Expr.even, found, hidden] using even
              rw [inline_hidden found hidden, inline_hidden found hidden]
              split
              · rfl
              · exact Expr.slots_even (ih (name :: path)) field other r.body
                  (leveled name member r found)

theorem Leveled.slots_even (leveled : t.Leveled level) {e : Expr} (even : e.even t level = true)
    (field other : String) :
    t.slots other e = (t.slots field e).map ({ · with field := other }) :=
  Expr.slots_even (leveled.inline_even _ _) field other e even

end Table

/-- What is asked of an expression besides its parts: kinds and terminals mean
what they say, and what is given a field takes it. -/
def Expr.tidy (t : Table) (level : List String) : Expr → Bool
  | .tok sym _ => isProper sym
  | .leaf kind sym => isProper kind && kind != errorSymbol && isProper sym && sym != errorSymbol
  | .sepBy _ sep _ => isProper sep && !isNamedSymbol sep
  | .suffixed head _ suffixes =>
      head.even t level && suffixes.all fun x => x.kind != "" && isProper x.kind
  | .binary kind operand ops =>
      isProper kind && operand.even t level &&
        ops.all fun op => isProper op.1 && !isNamedSymbol op.1
  | .unary kind ops _ => isProper kind && ops.all fun op => isProper op && !isNamedSymbol op
  | _ => true

structure Table.Tidy (t : Table) (level : List String) (rank : String → Nat) : Prop where
  layered : t.Layered rank
  leveled : t.Leveled level
  parts : ∀ {e}, t.Part e → e.tidy t level = true
  symbols : ∀ {e sym}, t.Part e → sym ∈ e.terminals → sym ∈ t.symbols
  rules : ∀ {name r}, t.rule? name = some r → r.hidden = false → isProper r.nodeKind = true

namespace Mq

def level : List String :=
  ["_expression", "_primary", "_unary", "_postfixed", "_atom", "_identifier_head", "_boolean"]

theorem splices_ranked :
    ∀ r ∈ mq.rules, r.hidden = true → ∀ x ∈ r.body.splices, rank x < rank r.name := by
  decide +kernel

theorem level_even : ∀ r ∈ mq.rules, r.name ∈ level → r.body.even mq level = true := by
  decide +kernel

theorem parts_tidy : ∀ r ∈ mq.rules, ∀ e ∈ r.body.parts, e.tidy mq level = true := by
  decide +kernel

theorem rules_proper : ∀ r ∈ mq.rules, isProper r.nodeKind = true := by
  decide +kernel

theorem tidy : mq.Tidy level rank where
  layered :=
    { low := by
        intro name
        have few : 23 ≤ mq.rules.length := by decide
        unfold rank
        split <;> omega
      below := by
        intro name r found hidden
        obtain ⟨member, rfl⟩ := Table.rule?_eq_some found
        exact splices_ranked r member hidden }
  leveled := by
    intro name listed r found
    obtain ⟨member, rfl⟩ := Table.rule?_eq_some found
    exact level_even r member listed
  parts := fun ⟨r, member, inside⟩ => parts_tidy r member _ inside
  symbols := (Table.accepted_of_build build_eq).known
  rules := fun found _ => rules_proper _ (Table.rule?_eq_some found).1

end Mq

end MqTree
