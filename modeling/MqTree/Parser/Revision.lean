import MqTree.Fault
import MqTree.Parser.Basic
import MqTree.Tree.Basic

namespace MqTree

namespace Parser

structure Parse where
  tree : Tree
  events : List Event

/-- The tree of a text, with a report of the parse. There is a tree for every
text: what is malformed becomes errors and placeholders. -/
def parseReported (p : Parser) (text : Text) : Except Violation Parse :=
  (build (p.context text) .empty).map fun (root, events) =>
    ⟨{ root, text, revision := 0, edits := [] }, events⟩

def parse (p : Parser) (text : Text) : Except Violation Tree :=
  (p.parseReported text).map Parse.tree

def Parse.log (r : Parse) (what : String) : List String :=
  r.events.filterMap Event.message? ++
    [s!"{what}: revision={r.tree.revision} " ++ ((r.tree.sexp?.bind Text.toString?).getD "")]

def parseLog (r : Parse) : List String := r.log "parse"

inductive ReparseError where
  | invalid (error : EditError)
  | violation (v : Violation)

structure Reparse extends Parse where
  offered : Nat

/-- The tree of `text`, built from the tree of the text that the edits were
made to. Statements that no edit touched are taken over as they are. -/
def reparseReported (p : Parser) (old : Tree) (edits : List Edit) (text : Text) :
    Except ReparseError Reparse := do
  (Edit.validate (Int64.ofNat old.text.size) edits (Int64.ofNat text.size)).mapError .invalid
  let index := ReuseIndex.ofEdits old.root edits
  let (root, events) ← (build (p.context text) index).mapError .violation
  pure ⟨⟨{ root, text, revision := old.revision + 1, edits := old.edits ++ edits }, events⟩,
    index.size⟩

def reparse (p : Parser) (old : Tree) (edits : List Edit) (text : Text) :
    Except ReparseError Tree :=
  (p.reparseReported old edits text).map fun r => r.tree

def Parse.reused (r : Parse) : List Node :=
  r.events.filterMap fun
    | .reused start node => some ⟨node, start⟩
    | _ => none

def reparseLog (edits : List Edit) (r : Reparse) : List String :=
  s!"reparse: {edits.length} edits, {r.offered} reusable statements" :: r.log "reparse"

def ReparseError.failure : ReparseError → Failure
  | .invalid e => .fault (.during "cst.ValidateEdits" e.fault)
  | .violation v => .violation v

end Parser

def Edit.appliedTo (text : Text) (edits : List Edit) : Except Fault Text :=
  (Edit.applyAll text edits).mapError fun e => .during "cst.ApplyEdits" e.fault

def Parser.revise (p : Parser) (tree : Tree) (edits : List Edit) (text? : Option Text) :
    Except Failure Parser.Reparse := do
  let text ←
    match text? with
    | some text => pure text
    | none => (Edit.appliedTo tree.text edits).mapError .fault
  (p.reparseReported tree edits text).mapError Parser.ReparseError.failure

end MqTree
