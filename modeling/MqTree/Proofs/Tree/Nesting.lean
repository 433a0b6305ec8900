import MqTree.Proofs.Tree.Walk

namespace MqTree

/-! What it means for a whole tree to have no defects. A check looks at one
parent and its children at a time; what all checks come to is said here of any
two nodes, however far apart. -/

namespace Node

/-- The node at the end of a path, which says at each node which child comes
next. -/
def at? : Node → List Nat → Option Node
  | n, [] => some n
  | n, i :: path => n.children[i]?.bind fun c => c.at? path

/-- What it takes for all nodes below one to be nested. The order of paths is
that of the document: a node comes before all that is below it, which comes
before the next node beside it. -/
structure Nested (root : Node) : Prop where
  hollow : ∀ path n, root.at? path = some n → n.kind = missingKind → n.start = n.stop
  inside : ∀ path below n v, root.at? path = some n → root.at? (path ++ below) = some v →
    n.start ≤ v.start ∧ v.stop ≤ n.stop
  /-- A node ends before any that comes later and is not below it. -/
  apart : ∀ p q u v, root.at? p = some u → root.at? q = some v → p < q → ¬p <+: q →
    u.stop ≤ v.start

structure Tidy (n : Node) : Prop where
  hollow : n.kind = missingKind → n.start = n.stop
  inside : ∀ c ∈ n.children, n.start ≤ c.start ∧ c.stop ≤ n.stop
  apart : n.children.Pairwise fun u v => u.stop ≤ v.start

variable {root n c u v : Node}

theorem at?_append (n : Node) (path below : List Nat) :
    n.at? (path ++ below) = (n.at? path).bind fun m => m.at? below := by
  induction path generalizing n with
  | nil => rfl
  | cons i path ih =>
      rw [List.cons_append, at?, at?, Option.bind_assoc]
      exact congrArg _ (funext ih)

theorem at?_cons {i : Nat} (found : n.children[i]? = some c) (path : List Nat) :
    n.at? (i :: path) = c.at? path := by
  rw [at?, found, Option.bind_some]

theorem exists_of_at?_cons {i : Nat} {path : List Nat} (ends : n.at? (i :: path) = some v) :
    ∃ c ∈ n.children, n.children[i]? = some c ∧ c.at? path = some v := by
  obtain ⟨c, found, below⟩ := Option.bind_eq_some_iff.mp ends
  exact ⟨c, List.mem_of_getElem? found, found, below⟩

theorem mem_walk_iff_at? : v ∈ n.walk ↔ ∃ path, n.at? path = some v := by
  induction n using by_nodes with
  | step n ih =>
      rw [walk_eq, List.mem_cons, List.mem_flatMap]
      constructor
      · rintro (rfl | ⟨c, member, below⟩)
        · exact ⟨[], rfl⟩
        · obtain ⟨path, ends⟩ := (ih c member).mp below
          obtain ⟨i, found⟩ := List.getElem?_of_mem member
          exact ⟨i :: path, (at?_cons found path).trans ends⟩
      · rintro ⟨_ | ⟨i, path⟩, ends⟩
        · exact Or.inl (Option.some.inj ends).symm
        · obtain ⟨c, member, _, below⟩ := exists_of_at?_cons ends
          exact Or.inr ⟨c, member, (ih c member).mpr ⟨path, below⟩⟩

/-- A walk meets nodes in the order of their paths. -/
theorem walk_ordered (n : Node) :
    n.walk.Pairwise fun u v => ∃ p q, p < q ∧ n.at? p = some u ∧ n.at? q = some v := by
  induction n using by_nodes with
  | step n ih =>
      rw [walk_eq, List.pairwise_cons, List.pairwise_flatMap]
      refine ⟨?_, ?_, ?_⟩
      · intro v member
        obtain ⟨c, inside, below⟩ := List.mem_flatMap.mp member
        obtain ⟨i, found⟩ := List.getElem?_of_mem inside
        obtain ⟨path, ends⟩ := mem_walk_iff_at?.mp below
        exact ⟨[], i :: path, List.nil_lt_cons i path, rfl, (at?_cons found path).trans ends⟩
      · intro c member
        obtain ⟨i, found⟩ := List.getElem?_of_mem member
        refine (ih c member).imp ?_
        rintro u v ⟨p, q, before, first, second⟩
        exact ⟨i :: p, i :: q, List.cons_lt_cons_iff.mpr (Or.inr ⟨rfl, before⟩),
          (at?_cons found p).trans first, (at?_cons found q).trans second⟩
      · rw [List.pairwise_iff_getElem]
        intro i j inside within before u first v second
        obtain ⟨p, ends⟩ := mem_walk_iff_at?.mp first
        obtain ⟨q, stops⟩ := mem_walk_iff_at?.mp second
        exact ⟨i :: p, j :: q, List.cons_lt_cons_iff.mpr (Or.inl before),
          (at?_cons (List.getElem?_eq_getElem inside) p).trans ends,
          (at?_cons (List.getElem?_eq_getElem within) q).trans stops⟩

theorem Nested.child (nested : n.Nested) (member : c ∈ n.children) : c.Nested := by
  obtain ⟨i, found⟩ := List.getElem?_of_mem member
  have below {path : List Nat} {v : Node} (ends : c.at? path = some v) :
      n.at? (i :: path) = some v := (at?_cons found path).trans ends
  refine ⟨?_, ?_, ?_⟩
  · intro path v ends
    exact nested.hollow (i :: path) v (below ends)
  · intro path rest u v first second
    exact nested.inside (i :: path) rest u v (below first) (below second)
  · intro p q u v first second before apart
    refine nested.apart (i :: p) (i :: q) u v (below first) (below second)
      (List.cons_lt_cons_iff.mpr (Or.inr ⟨rfl, before⟩)) ?_
    rwa [List.cons_prefix_cons, and_iff_right rfl]

theorem Nested.tidy (nested : n.Nested) : n.Tidy := by
  refine ⟨nested.hollow [] n rfl, ?_, ?_⟩
  · intro c member
    obtain ⟨i, found⟩ := List.getElem?_of_mem member
    exact nested.inside [] [i] n c rfl (at?_cons found [])
  · rw [List.pairwise_iff_getElem]
    intro i j inside within before
    refine nested.apart [i] [j] _ _ (at?_cons (List.getElem?_eq_getElem inside) [])
      (at?_cons (List.getElem?_eq_getElem within) [])
      (List.cons_lt_cons_iff.mpr (Or.inl before)) ?_
    rw [List.cons_prefix_cons]
    exact fun same => Nat.ne_of_lt before same.1

theorem Tidy.nested (tidy : n.Tidy) (nested : ∀ c ∈ n.children, c.Nested) : n.Nested := by
  -- Children lie inside the node, and so does what is inside them.
  have within {path : List Nat} {v : Node} (ends : n.at? path = some v) :
      n.start ≤ v.start ∧ v.stop ≤ n.stop := by
    cases path with
    | nil =>
        obtain rfl := Option.some.inj ends
        exact ⟨Int.le_refl _, Int.le_refl _⟩
    | cons i path =>
        obtain ⟨c, member, _, below⟩ := exists_of_at?_cons ends
        have outer := tidy.inside c member
        have inner := (nested c member).inside [] path c v rfl below
        omega
  refine ⟨?_, ?_, ?_⟩
  · rintro (_ | ⟨i, path⟩) v ends
    · obtain rfl := Option.some.inj ends
      exact tidy.hollow
    · obtain ⟨c, member, _, below⟩ := exists_of_at?_cons ends
      exact (nested c member).hollow path v below
  · rintro (_ | ⟨i, path⟩) rest u v first second
    · obtain rfl := Option.some.inj first
      exact within second
    · obtain ⟨c, member, found, below⟩ := exists_of_at?_cons first
      rw [List.cons_append, at?_cons found] at second
      exact (nested c member).inside path rest u v below second
  · rintro (_ | ⟨i, p⟩) (_ | ⟨j, q⟩) u v first second before apart
    · exact absurd (List.prefix_refl []) apart
    · exact absurd (List.nil_prefix) apart
    · exact absurd before (List.not_lt_nil _)
    · obtain ⟨c, member, found, below⟩ := exists_of_at?_cons first
      obtain ⟨d, other, found', below'⟩ := exists_of_at?_cons second
      rcases List.cons_lt_cons_iff.mp before with earlier | ⟨rfl, behind⟩
      · -- Each is inside a child of its own, and these are apart.
        obtain ⟨low, rfl⟩ := List.getElem?_eq_some_iff.mp found
        obtain ⟨high, rfl⟩ := List.getElem?_eq_some_iff.mp found'
        have beside := List.pairwise_iff_getElem.mp tidy.apart i j low high earlier
        have ends := ((nested _ member).inside [] p _ u rfl below).2
        have starts := ((nested _ other).inside [] q _ v rfl below').1
        omega
      · obtain rfl := Option.some.inj (found.symm.trans found')
        rw [List.cons_prefix_cons, and_iff_right rfl] at apart
        exact (nested c member).apart p q u v below below' behind apart

theorem nested_iff_tidy : n.Nested ↔ ∀ v ∈ n.walk, v.Tidy := by
  induction n using by_nodes with
  | step n ih =>
      constructor
      · intro nested v member
        rw [walk_eq] at member
        rcases List.mem_cons.mp member with rfl | inner
        · exact nested.tidy
        · obtain ⟨c, inside, below⟩ := List.mem_flatMap.mp inner
          exact (ih c inside).mp (nested.child inside) v below
      · intro tidy
        refine (tidy n n.mem_walk_self).nested fun c member => (ih c member).mpr ?_
        exact fun v below => tidy v (mem_walk_trans (child_mem_walk member) below)

theorem Nested.of_mem_walk (nested : n.Nested) (member : v ∈ n.walk) :
    n.start ≤ v.start ∧ v.stop ≤ n.stop := by
  obtain ⟨path, ends⟩ := mem_walk_iff_at?.mp member
  exact nested.inside [] path n v rfl ends

theorem childDefects_eq_nil_iff {index : Nat} {bound : Int} {children : List Node}
    (nonneg : ∀ c ∈ children, 0 ≤ c.sub.length) :
    n.childDefects index bound children = [] ↔
      (∀ c ∈ children, bound ≤ c.start ∧ c.stop ≤ n.stop) ∧
        children.Pairwise fun u v => u.stop ≤ v.start := by
  induction children generalizing index bound with
  | nil => simp [childDefects]
  | cons c rest ih =>
      obtain ⟨own, others⟩ := List.forall_mem_cons.mp nonneg
      -- The check compares neighbours only; widths carry the order on to all others.
      have wide : c.start ≤ c.stop := Int.le_add_of_nonneg_right own
      rw [childDefects, List.append_eq_nil_iff, List.append_eq_nil_iff, ite_eq_right_iff,
        ite_eq_right_iff, ih others, List.forall_mem_cons, List.pairwise_cons]
      simp only [List.cons_ne_nil, imp_false, Int.not_lt]
      constructor
      · rintro ⟨⟨early, late⟩, later, ordered⟩
        refine ⟨⟨⟨early, late⟩, fun d member => ?_⟩, fun d member => (later d member).1, ordered⟩
        have behind := later d member
        omega
      · rintro ⟨⟨own, inside⟩, behind, ordered⟩
        exact ⟨own, fun d member => ⟨behind d member, (inside d member).2⟩, ordered⟩

theorem children_of_isLeaf (leaf : n.sub.isLeaf = true) : n.children = [] := by
  obtain ⟨sub, start⟩ := n
  cases sub with
  | leaf => rfl
  | missing | branch => contradiction

/-- A node has no defects if it is tidy and, as a leaf, starts behind the last. -/
theorem defects_eq_nil_iff {leafEnd : Int} (nonneg : ∀ c ∈ n.children, 0 ≤ c.sub.length) :
    n.defects leafEnd = [] ↔ n.Tidy ∧ (n.sub.isLeaf = true → leafEnd ≤ n.start) := by
  have hollow :
      (if n.sub.isMissing && n.start != n.stop then [Defect.wideMissing n.start] else []) = [] ↔
        (n.kind = missingKind → n.start = n.stop) := by
    rw [ite_eq_right_iff]
    simp [Subtree.isMissing, kind]
  rw [defects, List.append_eq_nil_iff, hollow]
  by_cases leaf : n.sub.isLeaf = true
  · rw [if_pos leaf, ite_eq_right_iff]
    simp only [List.cons_ne_nil, imp_false, Int.not_lt, leaf, forall_const]
    refine and_congr_left fun _ => ⟨fun empty => ⟨empty, ?_, ?_⟩, Tidy.hollow⟩
    · rw [children_of_isLeaf leaf]
      exact fun _ none => absurd none List.not_mem_nil
    · rw [children_of_isLeaf leaf]
      exact List.Pairwise.nil
  · rw [if_neg leaf, childDefects_eq_nil_iff nonneg]
    constructor
    · rintro ⟨empty, inside, apart⟩
      exact ⟨⟨empty, inside, apart⟩, fun yes => absurd yes leaf⟩
    · rintro ⟨⟨empty, inside, apart⟩, _⟩
      exact ⟨empty, inside, apart⟩

theorem tidy_of_defectsOfAll {leafEnd : Int} {ns : List Node}
    (nonneg : ∀ n ∈ ns, ∀ c ∈ n.children, 0 ≤ c.sub.length)
    (none : defectsOfAll leafEnd ns = []) : ∀ n ∈ ns, n.Tidy := by
  induction ns generalizing leafEnd with
  | nil => exact fun _ member => absurd member List.not_mem_nil
  | cons n rest ih =>
      obtain ⟨own, others⟩ := List.forall_mem_cons.mp nonneg
      rw [defectsOfAll, List.append_eq_nil_iff, defects_eq_nil_iff own] at none
      exact List.forall_mem_cons.mpr ⟨none.1.1, ih others none.2⟩

theorem defectsOfAll_of_tidy {leafEnd : Int} {ns : List Node}
    (nonneg : ∀ n ∈ ns, ∀ c ∈ n.children, 0 ≤ c.sub.length) (tidy : ∀ n ∈ ns, n.Tidy)
    (behind : ∀ n ∈ ns, n.sub.isLeaf = true → leafEnd ≤ n.start)
    (ordered : ns.Pairwise fun u v => u.sub.isLeaf = true → u.stop ≤ v.start) :
    defectsOfAll leafEnd ns = [] := by
  induction ns generalizing leafEnd with
  | nil => rfl
  | cons n rest ih =>
      obtain ⟨nonneg, others⟩ := List.forall_mem_cons.mp nonneg
      obtain ⟨tidy, neat⟩ := List.forall_mem_cons.mp tidy
      obtain ⟨behind, later⟩ := List.forall_mem_cons.mp behind
      obtain ⟨next, ordered⟩ := List.pairwise_cons.mp ordered
      rw [defectsOfAll, (defects_eq_nil_iff nonneg).mpr ⟨tidy, behind⟩, List.nil_append]
      refine ih others neat ?_ ordered
      intro m member leaf
      split
      next own => exact next m member own
      next => exact later m member leaf

theorem children_nonneg (nonneg : ∀ v ∈ n.walk, 0 ≤ v.sub.length) :
    ∀ v ∈ n.walk, ∀ c ∈ v.children, 0 ≤ c.sub.length :=
  fun _ member c child => nonneg c (mem_walk_trans member (child_mem_walk child))

theorem nested_of_defectsOfAll {leafEnd : Int} (nonneg : ∀ v ∈ n.walk, 0 ≤ v.sub.length)
    (none : defectsOfAll leafEnd n.walk = []) : n.Nested :=
  nested_iff_tidy.mpr (tidy_of_defectsOfAll (children_nonneg nonneg) none)

theorem Nested.behind_leaves (nested : n.Nested) :
    n.walk.Pairwise fun u v => u.sub.isLeaf = true → u.stop ≤ v.start := by
  refine n.walk_ordered.imp ?_
  rintro u v ⟨p, q, before, first, second⟩ leaf
  refine nested.apart p q u v first second before ?_
  rintro ⟨_ | ⟨i, rest⟩, rfl⟩
  · rw [List.append_nil] at before
    exact List.lt_irrefl p before
  · rw [at?_append, first, Option.bind_some] at second
    obtain ⟨c, member, _⟩ := exists_of_at?_cons second
    rw [children_of_isLeaf leaf] at member
    exact absurd member List.not_mem_nil

theorem Nested.defectsOfAll_eq {leafEnd : Int} (nested : n.Nested)
    (nonneg : ∀ v ∈ n.walk, 0 ≤ v.sub.length) (behind : leafEnd ≤ n.start) :
    defectsOfAll leafEnd n.walk = [] :=
  defectsOfAll_of_tidy (children_nonneg nonneg) (nested_iff_tidy.mp nested)
    (fun _ member _ => Int.le_trans behind (nested.of_mem_walk member).1) nested.behind_leaves

end Node

/-- A tree has no defects exactly if its root is that of a document and spans the
text, and all its nodes are nested. -/
theorem Tree.verify_iff_nested (t : Tree) (nonneg : ∀ n ∈ t.rootNode.walk, 0 ≤ n.sub.length) :
    t.verify = [] ↔
      (t.rootNode.kind = sourceFile ∧ t.rootNode.start = 0 ∧ t.rootNode.stop = t.text.size) ∧
        t.rootNode.Nested := by
  have root : t.rootDefects = [] ↔
      t.rootNode.kind = sourceFile ∧ t.rootNode.start = 0 ∧ t.rootNode.stop = t.text.size := by
    rw [rootDefects, List.append_eq_nil_iff, ite_eq_left_iff, ite_eq_left_iff]
    simp [Node.kind, Node.stop, rootNode]
  rw [verify, List.append_eq_nil_iff, root]
  refine and_congr_right fun _ => ?_
  exact ⟨Node.nested_of_defectsOfAll nonneg,
    fun nested => nested.defectsOfAll_eq nonneg (Int.le_refl 0)⟩

def Tree.openBracket (offset : Int) : Tree where
  root := .node sourceFile true 1 0
    [⟨"", offset, .ofToken "(" false ⟨.punctuation, "(", 0, 1, 1, 1, false⟩⟩,
      ⟨"", 1, .placeholder ")"⟩]
  text := Text.ofString "("
  revision := 0
  edits := []

theorem Tree.verify_iff_nested_bracket :
    (openBracket 0).rootNode.Nested ∧ ¬(openBracket (-1)).rootNode.Nested := by
  constructor
  · exact ((openBracket 0).verify_iff_nested (by decide)).mp (by decide) |>.2
  · intro nested
    have verified := ((openBracket (-1)).verify_iff_nested (by decide)).mpr ⟨by decide, nested⟩
    exact absurd verified (by decide)

end MqTree
