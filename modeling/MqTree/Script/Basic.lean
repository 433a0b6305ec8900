import MqTree.Parser.Revision

namespace MqTree

/-- Batches of edits. Each batch leads from one revision to the next. -/
abbrev Script := List (List Edit)

inductive ReplayError where
  | apply (step : Nat) (error : EditError)
  | reparse (step : Nat) (error : Parser.ReparseError)

namespace ReplayError

def failure : ReplayError → Failure
  | apply step error => .fault (.during s!"steps[{step}]" (.during "cst.ApplyEdits" error.fault))
  | reparse step error =>
      match error.failure with
      | .fault f => .fault (.during s!"steps[{step}]" (.during "p.Reparse" f))
      | .violation v => .violation v

end ReplayError

namespace Script

/-- Carries out the batches from number `step` on: a report for each that could
be, and the last tree unless one could not. -/
def replayFrom (p : Parser) (step : Nat) (tree : Tree) :
    Script → List (List Edit × Parser.Reparse) × Except ReplayError Tree
  | [] => ([], .ok tree)
  | batch :: rest =>
      match Edit.applyAll tree.text batch with
      | .error e => ([], .error (.apply step e))
      | .ok text =>
          match p.reparseReported tree batch text with
          | .error e => ([], .error (.reparse step e))
          | .ok r =>
              let (reports, result) := replayFrom p (step + 1) r.tree rest
              ((batch, r) :: reports, result)

def replay (p : Parser) (tree : Tree) (script : Script) : Except ReplayError Tree :=
  (script.replayFrom p 0 tree).2

@[simp] theorem replay_nil (p : Parser) (tree : Tree) : replay p tree [] = .ok tree := rfl

end Script

end MqTree
