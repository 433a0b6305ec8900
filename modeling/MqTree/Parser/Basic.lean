import MqTree.Grammar.Mq
import MqTree.Parser.Step

namespace MqTree

structure Parser where
  table : Table := mq
  /-- How many tokens may be skipped to reach something expected before a
  placeholder takes its place. -/
  window : Nat := 2

namespace Parser

def withWindow (p : Parser) (window : Int) : Parser :=
  if window < 0 then p else { p with window := window.toNat }

end Parser

namespace Table

def weight (t : Table) : Nat := t.rules.foldl (fun n r => n + r.body.weight + 1) 1

end Table

namespace Parser

/-- Enough for every parse that makes progress: between two tokens no more than
every node of every rule is entered, a few times each. -/
def fuel (c : Context) : Nat := (c.src.size + 2) * (4 * c.table.weight + 4)

def rootEdge (it : Item) : Edge Subtree := it.edge 0

/-- The children of the root: what the start rule matched, then what is left of
the text as an error, then the last comments. -/
def rootChildren (c : Context) (items : List Item) (s : State) : List Item × State :=
  if s.token.isEnd then (items ++ s.pending, s)
  else
    let (rest, last) := consumeUntil c (·.token.isEnd) (c.src.size + 1) s
    (items ++ [last.finish errorKind "" rest] ++ last.pending, last)

def build (c : Context) (reuse : ReuseIndex) : Except Violation (Subtree × List Event) :=
  match c.table.rule? c.table.start with
  | none => .error .outOfRange
  | some r =>
      match run (fuel c) c (.expr r.body "") (State.initial c reuse) with
      | .halted v => .error v
      | .failed _ => .error .endless
      | .done items s =>
          let (children, last) := rootChildren c items s
          .ok (.node r.nodeKind true c.src.size 0 (children.map rootEdge), last.trace.reverse)

def context (p : Parser) (src : Text) : Context := ⟨p.table, src, p.window, false⟩

end Parser

end MqTree
