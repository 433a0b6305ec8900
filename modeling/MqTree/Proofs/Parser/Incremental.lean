import MqTree.Proofs.Edit.Batch
import MqTree.Proofs.Parser.Mirror
import MqTree.Proofs.Parser.WellFormed

namespace MqTree

namespace Parser

/-- Edits with all their bytes, of sizes that can be counted in, that make
`text` of the text of a tree. A character that is cut short behind its second
byte is not completed unless one of its first two bytes is replaced. -/
structure Leads (tree : Tree) (edits : List Edit) (text : Text) : Prop where
  applied : Edit.applyAll tree.text edits = .ok text
  counts : Counts tree edits text
  short : ∀ e ∈ edits, ∀ bytes, e.text = some bytes → bytes.size < 2 ^ 63
  torn : ∀ i new : Nat, Rune.torn tree.text i = true →
    Edit.Carries tree.text.size i (i + 2) edits text.size new → Rune.torn text new = true

theorem Leads.valid {tree : Tree} {edits : List Edit} {text : Text} (leads : Leads tree edits text) :
    Edit.validate (Int64.ofNat tree.text.size) edits (Int64.ofNat text.size) = .ok () ∧
      text = edits.foldl Edit.splice tree.text ∧ ∀ e ∈ edits, e.Full := by
  have counted : Edit.Counted tree.text edits := ⟨leads.counts.old, leads.short⟩
  have rewrites := counted.applyAll_iff.mp leads.applied
  exact ⟨Edit.validate_of_sizeAfter rewrites.sizeAfter_eq, rewrites.foldl_splice.symm,
    rewrites.full⟩

structure Faithful (p : Parser) (t : Tree) : Prop where
  steady : t.Steady
  sure : ∀ n ∈ t.rootNode.walk, n.isStatement = true → Sure p t.text n.start.toNat n.sub
  fresh : ∃ fresh, p.parse t.text = .ok fresh ∧ fresh.text = t.text ∧
    fresh.root.bare = t.root.bare

section

variable {p : Parser} {o : Outline} {tree : Tree} {edits : List Edit} {text : Text}

theorem Faithful.carried (faithful : Faithful p tree) (leads : Leads tree edits text)
    {start : Nat} (inside : start ≤ text.size) {sub : Subtree}
    (offered : (Int64.ofNat start, sub) ∈ (ReuseIndex.ofEdits tree.root edits).entries) {m : Node}
    (member : m ∈ (Node.mk sub start).walk) (marked : m.isStatement = true) :
    Sure p text m.start.toNat m.sub := by
  obtain ⟨valid, rfl, full⟩ := leads.valid
  obtain ⟨old, new, roomy⟩ := leads.counts
  obtain ⟨outer, own, known, isStatement, above, order, within, rfl, rfl, carries⟩ :=
    faithful.steady.inner old new valid roomy inside offered member marked
  obtain ⟨portable, _⟩ := faithful.steady.statements own known isStatement
  have positive := portable.positive
  have looked := portable.looked
  simp only [Node.examined, Node.stop] at within
  have agree := carries.agree rfl above (by simp only [Node.examined, Node.stop]; omega) full
  have stays : Rune.StaysTorn tree.text outer.start.toNat (edits.foldl Edit.splice tree.text) start
      (outer.examined - outer.start).toNat := by
    intro k below cut
    have range := carries.within (outer.start + k) (outer.start + k + 2) (by omega) (by omega)
    apply leads.torn _ (start + k) cut
    rw [show ((outer.start.toNat + k : Nat) : Int) = outer.start + k by omega,
      show ((start + k : Nat) : Int) = start + (outer.start + k - outer.start) by omega]
    exact range
  have dropped := agree.drop (m := (own.start - outer.start).toNat)
  have dropped' := stays.drop (m := (own.start - outer.start).toNat)
  simp only [Node.examined, Node.stop, Node.shift, Int.toNat_natCast] at dropped dropped' ⊢
  rw [show outer.start.toNat + (own.start - outer.start).toNat = own.start.toNat by omega,
    show start + (own.start - outer.start).toNat =
      (own.start + (start - outer.start)).toNat by omega] at dropped dropped'
  exact (faithful.sure own known isStatement).agree (dropped.mono (by omega))
    (dropped'.mono (by omega))

theorem Keeps.sure {index : ReuseIndex} (law : p.table.Lawful o) (fit : index.Fit text.size)
    (keeps : Keeps (p.context text) index Node.Portable)
    (known : ∀ start ≤ text.size, ∀ sub, (Int64.ofNat start, sub) ∈ index.entries →
      Sure p text start sub ∧ ∀ m ∈ (Node.mk sub start).walk, m.isStatement = true →
        Sure p text m.start.toNat m.sub) :
    Keeps (p.context text) index fun n => Sure p text n.start.toNat n.sub where
  marked := by
    intro frames s r it stands offered complete built _
    have sure := complete.sure law stands fit offered
      (fun start inside sub member => (known start inside sub member).1) built
    simp only [complete.led, Int.toNat_natCast]
    exact sure
  taken := by
    intro start sub inside offered m member marked
    exact ⟨(known start inside sub offered).2 m member marked,
      (keeps.taken start sub inside offered m member marked).2⟩

theorem build_faithful {index : ReuseIndex} (law : p.table.Lawful o) (fit : index.Fit text.size)
    (keeps : Keeps (p.context text) index Node.Portable)
    (known : ∀ start ≤ text.size, ∀ sub, (Int64.ofNat start, sub) ∈ index.entries →
      Sure p text start sub ∧ ∀ m ∈ (Node.mk sub start).walk, m.isStatement = true →
        Sure p text m.start.toNat m.sub) :
    ∃ root events, build (p.context text) index = .ok (root, events) ∧
      ∀ t : Tree, t.root = root → t.text = text → Faithful p t := by
  obtain ⟨root, events, built, steady⟩ := build_steady law fit keeps
  obtain ⟨items, last, parsed⟩ := @Parsed.of_lawful (p.context text) o index law rfl fit
  obtain ⟨items', last', parsed'⟩ := @Parsed.of_lawful (p.context text) o .empty law rfl
    fun _ _ _ offered => absurd offered List.not_mem_nil
  obtain ⟨rfl, _⟩ := Prod.mk.inj (Except.ok.inj (built.symm.trans (parsed.build_eq law)))
  refine ⟨_, events, built, ?_⟩
  intro t root src
  refine ⟨steady t root src, ?_, ?_⟩
  · intro n member marked
    rw [src]
    rw [Tree.rootNode, root] at member
    exact (parsed.keeps (Keeps.sure law fit keeps known) member marked).2.1
  · rw [src, root]
    refine ⟨_, parse_eq_of_build (parsed'.build_eq law), rfl, ?_⟩
    exact parsed.bare_eq law parsed' fit fun start inside sub member =>
      (known start inside sub member).1

theorem parse_faithful (law : p.table.Lawful o) (text : Text) :
    ∃ tree, p.parse text = .ok tree ∧ tree.text = text ∧ Faithful p tree := by
  obtain ⟨root, events, built, faithful⟩ := build_faithful law
    (fun _ _ _ offered => absurd offered List.not_mem_nil) (Keeps.fresh (p.context text))
    fun _ _ _ offered => absurd offered List.not_mem_nil
  exact ⟨_, parse_eq_of_build built, rfl, faithful _ rfl rfl⟩

theorem reparse_faithful (law : p.table.Lawful o) (faithful : Faithful p tree)
    (leads : Leads tree edits text) :
    ∃ next, p.reparse tree edits text = .ok next ∧ next.text = text ∧ Faithful p next := by
  obtain ⟨valid, _, _⟩ := leads.valid
  obtain ⟨old, new, roomy⟩ := leads.counts
  have steady := faithful.steady
  obtain ⟨root, events, built, next⟩ := build_faithful law (steady.fit old new valid roomy)
    (steady.keeps old new valid roomy (c := p.context text) rfl) fun start inside sub offered => by
      have inner {m : Node} := @faithful.carried p tree edits text leads start inside sub offered m
      obtain ⟨n, _, marked, rfl, _, _⟩ := steady.carried old new valid roomy inside offered
      refine ⟨?_, fun m member => inner member⟩
      have own := inner (Node.mem_walk_self ⟨n.sub, start⟩) marked
      rwa [Int.toNat_natCast] at own
  exact ⟨_, reparse_eq_of_build valid built, rfl, next _ rfl rfl⟩

inductive Revises (p : Parser) : Tree → Prop
  | parsed {text : Text} {tree : Tree} (made : p.parse text = .ok tree) : Revises p tree
  | reparsed {tree next : Tree} {edits : List Edit} {text : Text} (before : Revises p tree)
      (leads : Leads tree edits text)
      (made : p.reparse tree edits text = .ok next) : Revises p next

theorem Revises.faithful (law : p.table.Lawful o) (revises : Revises p tree) : Faithful p tree := by
  induction revises with
  | @parsed text tree made =>
      obtain ⟨other, parsed, _, faithful⟩ := parse_faithful law text
      rw [parsed] at made
      rwa [← Except.ok.inj made]
  | @reparsed tree next edits text before leads made ih =>
      obtain ⟨other, reparsed, _, faithful⟩ := reparse_faithful law ih leads
      rw [reparsed] at made
      rwa [← Except.ok.inj made]

theorem Faithful.snapshot_eq (faithful : Faithful p tree) :
    ∃ fresh, p.parse tree.text = .ok fresh ∧ fresh.snapshot = tree.snapshot := by
  obtain ⟨fresh, parsed, text, same⟩ := faithful.fresh
  exact ⟨fresh, parsed, Tree.snapshot_eq_of_bare_eq text same⟩

end

/-- Every revision is the tree that its text is parsed into, as long as the edits
say what they do and complete no character behind its second byte. -/
theorem revisions_eq_parses (window : Nat) :
    (∀ text, ∃ tree, Parser.parse { window } text = .ok tree ∧ tree.text = text) ∧
    ∀ tree, Revises { window } tree →
      (∃ fresh, Parser.parse { window } tree.text = .ok fresh ∧
        fresh.snapshot = tree.snapshot) ∧
      ∀ edits text, Leads tree edits text →
        ∃ next, Parser.reparse { window } tree edits text = .ok next ∧ next.text = text := by
  constructor
  · intro text
    obtain ⟨tree, parsed, src, _⟩ := parse_faithful (p := { window }) Mq.lawful text
    exact ⟨tree, parsed, src⟩
  · intro tree revises
    have faithful := revises.faithful Mq.lawful
    refine ⟨faithful.snapshot_eq, ?_⟩
    intro edits text leads
    obtain ⟨next, reparsed, src, _⟩ := reparse_faithful Mq.lawful faithful leads
    exact ⟨next, reparsed, src⟩

/-- A digit in place of the name that stands before a statement, which is taken
over. -/
theorem revision_replaced : ∃ tree made fresh,
    Parser.parse {} (Text.ofString "x\nlet y = 1") = .ok tree ∧
      Parser.reparseReported {} tree [⟨0, 1, 1, some (Text.ofString "1")⟩]
        (Text.ofString "1\nlet y = 1") = .ok made ∧
      made.reused.map Node.start = [2] ∧
      Parser.parse {} made.tree.text = .ok fresh ∧ fresh.snapshot = made.tree.snapshot := by
  have computed :
      ((Parser.parse {} (Text.ofString "x\nlet y = 1")).toOption.bind fun tree =>
        (Parser.reparseReported {} tree [⟨0, 1, 1, some (Text.ofString "1")⟩]
          (Text.ofString "1\nlet y = 1")).toOption).map (fun made => made.reused.map Node.start) =
        some [2] := by
    decide +kernel
  obtain ⟨tree, parsed, src⟩ := (revisions_eq_parses 2).1 (Text.ofString "x\nlet y = 1")
  have leads : Leads tree [⟨0, 1, 1, some (Text.ofString "1")⟩] (Text.ofString "1\nlet y = 1") := by
    refine ⟨?_, ⟨?_, ?_, ?_⟩, ?_, ?_⟩
    · rw [src]
      rfl
    · rw [src]
      decide
    · decide
    · rw [src]
      decide
    · decide
    · intro i new cut
      have whole : ∀ i < 11, Rune.torn (Text.ofString "x\nlet y = 1") i = false := by decide
      rw [src] at cut
      rw [whole i (Rune.lt_size_of_torn cut)] at cut
      exact absurd cut Bool.false_ne_true
  rw [parsed] at computed
  change (Parser.reparseReported {} tree [⟨0, 1, 1, some (Text.ofString "1")⟩]
    (Text.ofString "1\nlet y = 1")).toOption.map _ = _ at computed
  cases reported : Parser.reparseReported {} tree [⟨0, 1, 1, some (Text.ofString "1")⟩]
      (Text.ofString "1\nlet y = 1") with
  | error e =>
      rw [reported] at computed
      exact nomatch computed
  | ok made =>
      rw [reported] at computed
      have reparsed : Parser.reparse {} tree [⟨0, 1, 1, some (Text.ofString "1")⟩]
          (Text.ofString "1\nlet y = 1") = .ok made.tree := by
        rw [Parser.reparse, reported]
        rfl
      obtain ⟨fresh, again, same⟩ :=
        ((revisions_eq_parses 2).2 made.tree (.reparsed (.parsed parsed) leads reparsed)).1
      exact ⟨tree, made, fresh, parsed, reported, Option.some.inj computed, again, same⟩

def cutShort : Text := #[0x5b, 0x31, 0x20, 0x40, 0xf0, 0x90, 0x80, 0xff, 0x5d]

def completion : List Edit := [⟨7, 8, 8, some #[0x80]⟩]

def completed : Text := #[0x5b, 0x31, 0x20, 0x40, 0xf0, 0x90, 0x80, 0x80, 0x5d]

/-- To tell that a character is cut short, four bytes are read; only two are
counted. -/
theorem completion_differs : ∃ tree next fresh, Parser.parse {} cutShort = .ok tree ∧
    Edit.applyAll cutShort completion = .ok completed ∧
    Parser.reparse {} tree completion completed = .ok next ∧
    Parser.parse {} completed = .ok fresh ∧ fresh.snapshot ≠ next.snapshot := by
  have computed :
      (match Parser.parse {} cutShort with
        | .ok tree =>
            match Parser.reparse {} tree completion completed, Parser.parse {} completed with
            | .ok next, .ok fresh =>
                fresh.snapshot.children.length != next.snapshot.children.length
            | _, _ => false
        | .error _ => false) = true := by
    decide +kernel
  cases parsed : Parser.parse {} cutShort with
  | error v =>
      rw [parsed] at computed
      exact nomatch computed
  | ok tree =>
      simp only [parsed] at computed
      cases reparsed : Parser.reparse {} tree completion completed with
      | error e =>
          rw [reparsed] at computed
          exact nomatch computed
      | ok next =>
          cases again : Parser.parse {} completed with
          | error v =>
              rw [reparsed, again] at computed
              exact nomatch computed
          | ok fresh =>
              rw [reparsed, again] at computed
              refine ⟨tree, next, fresh, rfl, rfl, reparsed, rfl, ?_⟩
              intro same
              simp only [same, bne_self_eq_false] at computed
              exact nomatch computed

end Parser

end MqTree
