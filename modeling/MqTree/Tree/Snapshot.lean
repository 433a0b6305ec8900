import MqTree.Tree.Basic

namespace MqTree

structure Snapshot where
  kind : String
  field : String
  named : Bool
  start : Int
  stop : Int
  startPoint : Point
  endPoint : Point
  expected : String
  text : Text
  children : List Snapshot

namespace Snapshot

mutual

def same : Snapshot → Snapshot → Bool
  | ⟨kind, field, named, start, stop, startPoint, endPoint, expected, text, children⟩,
    ⟨kind', field', named', start', stop', startPoint', endPoint', expected', text', children'⟩ =>
      kind == kind' && field == field' && named == named' && start == start' && stop == stop' &&
        startPoint == startPoint' && endPoint == endPoint' && expected == expected' &&
        text == text' && sameAll children children'

def sameAll : List Snapshot → List Snapshot → Bool
  | [], [] => true
  | a :: as, b :: bs => same a b && sameAll as bs
  | _, _ => false

end

end Snapshot

namespace Subtree

mutual

def snapshot (text : Text) (lines : LineIndex) (field : String) (start : Int) :
    Subtree → Snapshot
  | .leaf kind named length _ _ _ =>
      let stop := start + length
      ⟨kind, field, named, start, stop, lines.point start.toNat, lines.point stop.toNat, "",
        text.extract start.toNat stop.toNat, []⟩
  | .missing expected _ =>
      ⟨missingKind, field, true, start, start, lines.point start.toNat,
        lines.point start.toNat, expected, #[], []⟩
  | .branch kind named length children _ =>
      let stop := start + length
      ⟨kind, field, named, start, stop, lines.point start.toNat, lines.point stop.toNat, "", #[],
        snapshotsOfChildren text lines start children⟩

def snapshotsOfChildren (text : Text) (lines : LineIndex) (start : Int) :
    List (Edge Subtree) → List Snapshot
  | [] => []
  | ⟨field, offset, node⟩ :: rest =>
      snapshot text lines field (start + offset) node ::
        snapshotsOfChildren text lines start rest

end

end Subtree

namespace Tree

def snapshot (t : Tree) : Snapshot := t.root.snapshot t.text t.lines "" 0

end Tree

end MqTree
