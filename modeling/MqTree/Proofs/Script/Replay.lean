import MqTree.Proofs.Edit.Batch
import MqTree.Proofs.Parser.Orderly
import MqTree.Proofs.Parser.WellFormed
import MqTree.Script.Basic

namespace MqTree

/-! A script leads to the text that its batches make one after the other, and
all its edits make the same text as one batch. -/

namespace Edit

variable {text mid out : Text} {batch more : List Edit}

/-- A batch whose texts have sizes that can be counted in: the text that it
meets, those that it puts in, and the text that it makes. -/
structure Sized (text : Text) (batch : List Edit) : Prop where
  old : text.size < 2 ^ 63
  short : ∀ e ∈ batch, ∀ bytes, e.text = some bytes → bytes.size < 2 ^ 63
  new : ∀ next, applyAll text batch = .ok next → next.size < 2 ^ 63

theorem Sized.of_applyAll (applied : applyAll text batch = .ok mid) (old : text.size < 2 ^ 63)
    (short : ∀ e ∈ batch, ∀ bytes ∈ e.text, bytes.size < 2 ^ 63) (new : mid.size < 2 ^ 63) :
    Sized text batch := by
  refine ⟨old, short, fun next same => ?_⟩
  rw [applied] at same
  rwa [← Except.ok.inj same]

theorem Sized.sizeAfter_eq (sized : Sized text batch)
    (applied : applyAll text batch = .ok mid) :
    sizeAfter 0 (Int64.ofNat text.size) batch = .ok (Int64.ofNat mid.size) := by
  have counted : Counted text batch := ⟨sized.old, sized.short⟩
  exact (counted.applyAll_iff.mp applied).sizeAfter_eq

theorem Sized.append (sized : Sized text batch)
    (first : applyAll text batch = .ok mid) (second : applyAll mid more = .ok out) :
    applyAll text (batch ++ more) = .ok out := by
  have counted := sized.sizeAfter_eq first
  obtain ⟨given, made, _⟩ := applyAll_ok first
  obtain ⟨later, rfl, final, checked⟩ := applyAll_ok second
  have whole : sizeAfter 0 (Int64.ofNat text.size) (batch ++ more) = .ok final := by
    rw [sizeAfter_append, counted]
    exact sizeAfter_index checked
  rw [made, ← List.foldl_append]
  exact applyAll_of_sizeAfter (List.forall_mem_append.mpr ⟨given, later⟩) whole

end Edit

namespace Script

def Along (P : Text → List Edit → Prop) (text : Text) : Script → Prop
  | [] => True
  | batch :: rest => P text batch ∧ ∀ next, Edit.applyAll text batch = .ok next → Along P next rest

theorem Along.cons {P : Text → List Edit → Prop} {text mid : Text} {batch : List Edit}
    {rest : Script} (own : P text batch) (applied : Edit.applyAll text batch = .ok mid)
    (later : rest.Along P mid) : Along P text (batch :: rest) := by
  refine ⟨own, fun next same => ?_⟩
  rw [applied] at same
  rwa [← Except.ok.inj same]

/-- The text that the batches of a script make one after the other. -/
def textAfter (text : Text) (script : Script) : Except EditError Text :=
  script.foldlM Edit.applyAll text

variable {text mid final : Text} {batch : List Edit} {rest script : Script}

theorem textAfter_cons (applied : Edit.applyAll text batch = .ok mid) :
    textAfter text (batch :: rest) = textAfter mid rest := by
  rw [textAfter, List.foldlM_cons, applied]
  rfl

theorem applyAll_flatten (sized : script.Along Edit.Sized text)
    (made : textAfter text script = .ok final) : Edit.applyAll text script.flatten = .ok final := by
  induction script generalizing text with
  | nil =>
      rw [← Except.ok.inj made]
      exact Edit.applyAll_of_sizeAfter (fun _ none => absurd none List.not_mem_nil)
        (Edit.sizeAfter_nil 0 _)
  | cons batch rest ih =>
      obtain ⟨own, others⟩ := sized
      cases applied : Edit.applyAll text batch with
      | error e =>
          rw [textAfter, List.foldlM_cons, applied] at made
          contradiction
      | ok mid =>
          rw [textAfter_cons applied] at made
          rw [List.flatten_cons]
          exact own.append applied (ih (others mid applied) made)

section

variable {p : Parser} {o : Outline} {tree : Tree} {step : Nat}

theorem replayFrom_cons (p : Parser) (step : Nat) (tree : Tree) (batch : List Edit) (rest : Script) :
    (∃ e, Edit.applyAll tree.text batch = .error e ∧
      (replayFrom p step tree (batch :: rest)).2 = .error (.apply step e)) ∨
    ∃ text, Edit.applyAll tree.text batch = .ok text ∧
      ((∃ e, p.reparse tree batch text = .error e ∧
        (replayFrom p step tree (batch :: rest)).2 = .error (.reparse step e)) ∨
      ∃ next, p.reparse tree batch text = .ok next ∧
        (replayFrom p step tree (batch :: rest)).2 = (replayFrom p (step + 1) next rest).2) := by
  cases applied : Edit.applyAll tree.text batch with
  | error e =>
      refine Or.inl ⟨e, rfl, ?_⟩
      rw [replayFrom, applied]
  | ok text =>
      refine Or.inr ⟨text, rfl, ?_⟩
      rw [replayFrom, applied]
      simp only [Parser.reparse]
      cases p.reparseReported tree batch text with
      | error e => exact Or.inl ⟨e, rfl, rfl⟩
      | ok r => exact Or.inr ⟨r.tree, rfl, rfl⟩

theorem reparse_ne_invalid (sized : Edit.Sized tree.text batch)
    (applied : Edit.applyAll tree.text batch = .ok mid) (e : EditError) :
    p.reparse tree batch mid ≠ .error (.invalid e) := by
  have valid := Edit.validate_of_sizeAfter (sized.sizeAfter_eq applied)
  intro failed
  rw [Parser.reparse, Parser.reparseReported, valid] at failed
  cases built : Parser.build (p.context mid) (.ofEdits tree.root batch) <;>
    simp [built, Except.mapError, Except.map, bind, Except.bind, pure, Except.pure] at failed

theorem replayFrom_ok (law : p.table.Lawful o) (formed : tree.WellFormed) {last : Tree}
    (done : (replayFrom p step tree script).2 = .ok last) :
    textAfter tree.text script = .ok last.text ∧
      last.revision = tree.revision + script.length ∧ last.edits = tree.edits ++ script.flatten := by
  induction script generalizing step tree with
  | nil =>
      obtain rfl := Except.ok.inj done
      exact ⟨rfl, rfl, (List.append_nil _).symm⟩
  | cons batch rest ih =>
      rcases replayFrom_cons p step tree batch rest with
        ⟨e, _, result⟩ | ⟨text, applied, ⟨e, _, result⟩ | ⟨next, made, result⟩⟩ <;>
      rw [result] at done
      · contradiction
      · contradiction
      · obtain ⟨formed', rfl, revision, edits, _⟩ := Parser.reparse_formed law formed made
        obtain ⟨texts, count, log⟩ := ih formed' done
        refine ⟨by rwa [textAfter_cons applied], ?_, ?_⟩
        · rw [count, revision, List.length_cons]
          omega
        · rw [log, edits, List.flatten_cons, List.append_assoc]

theorem replayFrom_apply (law : p.table.Lawful o) (formed : tree.WellFormed) {n : Nat}
    {e : EditError} (failed : (replayFrom p step tree script).2 = .error (.apply n e)) :
    ∃ i batch mid, n = step + i ∧ script[i]? = some batch ∧
      textAfter tree.text (script.take i) = .ok mid ∧ Edit.applyAll mid batch = .error e := by
  induction script generalizing step tree with
  | nil => contradiction
  | cons batch rest ih =>
      rcases replayFrom_cons p step tree batch rest with
        ⟨e, refused, result⟩ | ⟨text, applied, ⟨e, _, result⟩ | ⟨next, made, result⟩⟩ <;>
      rw [result] at failed
      · obtain ⟨rfl, rfl⟩ := ReplayError.apply.inj (Except.error.inj failed)
        exact ⟨0, batch, tree.text, rfl, rfl, rfl, refused⟩
      · exact nomatch failed
      · obtain ⟨formed', rfl, _⟩ := Parser.reparse_formed law formed made
        obtain ⟨i, own, mid, rfl, found, before, refused⟩ := ih formed' failed
        refine ⟨i + 1, own, mid, by omega, found, ?_, refused⟩
        rwa [List.take_succ_cons, textAfter_cons applied]

theorem replayFrom_ne_invalid (law : p.table.Lawful o) (formed : tree.WellFormed)
    (sized : script.Along Edit.Sized tree.text) (n : Nat) (e : EditError) :
    (replayFrom p step tree script).2 ≠ .error (.reparse n (.invalid e)) := by
  induction script generalizing step tree with
  | nil => exact nofun
  | cons batch rest ih =>
      obtain ⟨own, others⟩ := sized
      rcases replayFrom_cons p step tree batch rest with
        ⟨_, _, result⟩ | ⟨text, applied, ⟨e', lost, result⟩ | ⟨next, made, result⟩⟩ <;>
      rw [result]
      · exact nofun
      · intro same
        obtain ⟨_, rfl⟩ := ReplayError.reparse.inj (Except.error.inj same)
        exact reparse_ne_invalid own applied e lost
      · obtain ⟨formed', rfl, _⟩ := Parser.reparse_formed law formed made
        exact ih formed' (others _ applied)

theorem replayFrom_ne_reparse (law : p.table.Lawful o) (steady : tree.Steady)
    (sized : script.Along Edit.Sized tree.text)
    (roomy : script.Along (fun text batch => Edit.Roomy (Int64.ofNat text.size) batch) tree.text)
    (n : Nat) (e : Parser.ReparseError) :
    (replayFrom p step tree script).2 ≠ .error (.reparse n e) := by
  induction script generalizing step tree with
  | nil => exact nofun
  | cons batch rest ih =>
      obtain ⟨own, others⟩ := sized
      obtain ⟨room, later⟩ := roomy
      rcases replayFrom_cons p step tree batch rest with
        ⟨_, _, result⟩ | ⟨text, applied, outcome⟩
      · rw [result]
        exact nofun
      · -- A steady tree and edits that were applied leave the parser no way out.
        rcases Parser.reparse_steady (p := p) law steady ⟨own.old, own.new _ applied, room⟩ with
          ⟨invalid, _, lost⟩ | ⟨next, made, rfl, steady'⟩
        · exact absurd lost (reparse_ne_invalid own applied invalid)
        · rw [made] at outcome
          rcases outcome with ⟨_, lost, _⟩ | ⟨_, same, result⟩
          · contradiction
          · obtain rfl := Except.ok.inj same
            rw [result]
            exact ih steady' (others _ applied) (later _ applied)

end

/-- A script that is carried through leads to the text that its batches make one
after the other and that all its edits make as one batch, and its tree remembers
them; and a script fails at the first batch that does not apply. -/
theorem replay_accounts (window : Nat) (text : Text) (script : Script)
    (sized : script.Along Edit.Sized text) :
    ∃ first, Parser.parse { window } text = .ok first ∧
      (∀ last, replay { window } first script = .ok last →
        script.foldlM Edit.applyAll text = .ok last.text ∧ last.revision = script.length ∧
          last.edits = script.flatten ∧ Edit.applyAll text last.edits = .ok last.text) ∧
      (∀ step error, replay { window } first script = .error (.apply step error) →
        ∃ batch mid, script[step]? = some batch ∧
          (script.take step).foldlM Edit.applyAll text = .ok mid ∧
          Edit.applyAll mid batch = .error error) ∧
      (∀ step error, replay { window } first script ≠ .error (.reparse step (.invalid error))) ∧
      (script.Along (fun text batch => Edit.Roomy (Int64.ofNat text.size) batch) text →
        ∀ step error, replay { window } first script ≠ .error (.reparse step error)) := by
  obtain ⟨first, parsed, src, steady⟩ := Parser.parse_steady (p := { window }) Mq.lawful text
  obtain ⟨formed, _, revision, edits⟩ := Parser.parse_formed (p := { window }) Mq.lawful parsed
  subst src
  refine ⟨first, parsed, ?_, ?_, replayFrom_ne_invalid Mq.lawful formed sized,
    replayFrom_ne_reparse Mq.lawful steady sized⟩
  · intro last done
    obtain ⟨texts, count, log⟩ := replayFrom_ok Mq.lawful formed done
    rw [revision, Nat.zero_add] at count
    rw [edits, List.nil_append] at log
    refine ⟨texts, count, log, ?_⟩
    rw [log]
    exact applyAll_flatten sized texts
  · intro step error failed
    obtain ⟨i, batch, mid, rfl, found⟩ := replayFrom_apply Mq.lawful formed failed
    rw [Nat.zero_add]
    exact ⟨batch, mid, found⟩

def rewriting : Script :=
  [[⟨0, 1, 3, some (Text.ofString "let")⟩, ⟨3, 3, 7, some (Text.ofString " y =")⟩],
    [⟨7, 7, 9, some (Text.ofString " 1")⟩]]

/-- The second batch counts in the text that the first one made. -/
theorem replay_accounts_rewriting : ∃ first last,
    Parser.parse {} (Text.ofString "x") = .ok first ∧ replay {} first rewriting = .ok last ∧
      last.text = Text.ofString "let y = 1" ∧ last.revision = 2 ∧
      last.edits = rewriting.flatten ∧ Edit.applyAll (Text.ofString "x") last.edits = .ok last.text := by
  have one : Edit.applyAll (Text.ofString "x") rewriting[0] = .ok (Text.ofString "let y =") := by
    decide +kernel
  have two : Edit.applyAll (Text.ofString "let y =") rewriting[1] =
      .ok (Text.ofString "let y = 1") := by
    decide +kernel
  have sized : rewriting.Along Edit.Sized (Text.ofString "x") :=
    .cons (.of_applyAll one (by decide) (by decide) (by decide)) one
      (.cons (.of_applyAll two (by decide) (by decide) (by decide)) two trivial)
  have roomy : rewriting.Along (fun text batch => Edit.Roomy (Int64.ofNat text.size) batch)
      (Text.ofString "x") :=
    .cons (by decide) one (.cons (by decide) two trivial)
  obtain ⟨first, parsed, carried, failed, _, lost⟩ :=
    replay_accounts 2 (Text.ofString "x") rewriting sized
  cases outcome : replay {} first rewriting with
  | ok last =>
      obtain ⟨made, revision, edits, log⟩ := carried last outcome
      have whole : textAfter (Text.ofString "x") rewriting = .ok (Text.ofString "let y = 1") :=
        (textAfter_cons one).trans ((textAfter_cons two).trans rfl)
      have text := Except.ok.inj (made.symm.trans whole)
      exact ⟨first, last, parsed, outcome, text, revision, edits, log⟩
  | error e =>
      cases e with
      | reparse step e => exact absurd outcome (lost roomy step e)
      | apply step e =>
          obtain ⟨batch, mid, found, before, refused⟩ := failed step e outcome
          match step with
          | 0 =>
              obtain rfl := Option.some.inj found
              obtain rfl := Except.ok.inj before
              exact nomatch refused.symm.trans one
          | 1 =>
              obtain rfl := Option.some.inj found
              obtain rfl := Except.ok.inj (before.symm.trans ((textAfter_cons one).trans rfl))
              exact nomatch refused.symm.trans two
          | step + 2 => exact nomatch found

end Script

end MqTree
