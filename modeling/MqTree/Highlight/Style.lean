import MqTree.Grammar.Mq
import MqTree.Highlight.Category
import MqTree.Tree.Basic

namespace MqTree

abbrev Style := Text → Text

/-- The style of each category; leaves of a category without one stay as they
are. What no rule applies to is of the empty category. -/
abbrev Styles := String → Option Style

def isWhiteSpace (c : Char) : Bool :=
  let n := c.toNat
  (9 ≤ n && n ≤ 13) || n == 0x20 || n == 0x85 || n == 0xA0 || n == 0x1680 ||
    (0x2000 ≤ n && n ≤ 0x200A) || n == 0x2028 || n == 0x2029 || n == 0x202F || n == 0x205F ||
    n == 0x3000

namespace Style

def sgr (code : String) : Style :=
  fun t => Text.ofString ("\x1b[" ++ code ++ "m") ++ t ++ Text.ofString "\x1b[0m"

/-- Decorates every character on its own. What is no character is shown as a
replacement. -/
def perChar (f : Char → Style) : Style := fun t =>
  (Rune.list t).foldl
    (fun out (r, _) =>
      let c := r.char?.getD '\uFFFD'
      out ++ f c (Text.ofString c.toString))
    #[]

def error : Style := perChar fun c =>
  sgr (if isWhiteSpace c then "38;2;239;68;68;4" else "4;38;2;239;68;68;4")

end Style

namespace Styles

def none : Styles := fun _ => .none

def renditions : List (String × String) :=
  [("comment", "3;38;2;107;113;128"), ("string", "38;2;16;185;129"),
    ("string.escape", "38;2;245;158;11"), ("number", "38;2;245;158;11"),
    ("operator", "38;2;245;158;11"), ("constant", "38;2;6;182;211"),
    ("variable.builtin", "3;38;2;139;92;246"), ("variable.parameter", "3;38;2;248;250;252"),
    ("function", "1;38;2;6;182;211"), ("module", "38;2;139;92;246"),
    ("property", "38;2;147;163;184"), ("type", "3;38;2;6;182;211"),
    ("keyword", "1;38;2;139;92;246"), ("punctuation", "38;2;100;116;139")]

def terminal : Styles := fun category =>
  if category = "error" then some Style.error
  else (renditions.lookup category).map Style.sgr

end Styles

def Visit.category (rules : List HighlightRule) (v : Visit) : String :=
  (classify? rules v.parent v.field v.kind).getD ""

namespace Tree

def styled (t : Tree) (rules : List HighlightRule) (styles : Styles) (v : Visit) : Text :=
  let text := t.text.extract v.start.toNat v.stop.toNat
  match styles (v.category rules) with
  | .none => text
  | some style => Text.mapLines style text

/-- Writes leaves in order, and between them the bytes that no leaf covers,
from offset `pos` on. -/
def highlightFrom (t : Tree) (rules : List HighlightRule) (styles : Styles) (pos : Nat) :
    List Visit → Text
  | [] => t.text.extract pos t.text.size
  | v :: rest =>
      if v.sub.isMissing then t.highlightFrom rules styles pos rest
      else t.text.extract pos v.start.toNat ++ t.styled rules styles v ++
        t.highlightFrom rules styles v.stop.toNat rest

def highlight (t : Tree) (styles : Styles) : Text :=
  t.highlightFrom mq.highlightRules styles 0 t.rootNode.leaves

end Tree

end MqTree
