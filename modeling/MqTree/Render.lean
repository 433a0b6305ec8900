import MqTree.Fault
import MqTree.Highlight.Style
import MqTree.Tree.Snapshot

namespace MqTree

namespace Point

def json (p : Point) : Json := .obj [("line", .int p.line), ("column", .int p.column)]

end Point

namespace Snapshot

def optionalString (key value : String) : List (String × Json) :=
  if value = "" then [] else [(key, .string value)]

mutual

def json : Snapshot → Json
  | ⟨kind, field, named, start, stop, startPoint, endPoint, expected, text, children⟩ =>
      .obj ([("type", .string kind)] ++ optionalString "field" field ++
        [("named", .bool named), ("start_byte", .int start), ("end_byte", .int stop),
          ("start_point", startPoint.json), ("end_point", endPoint.json)] ++
        optionalString "expected" expected ++
        (if text.isEmpty then [] else [("text", .str text)]) ++
        (if children.isEmpty then [] else [("children", .arr (jsonOfAll children))]))

def jsonOfAll : List Snapshot → List Json
  | [] => []
  | s :: rest => json s :: jsonOfAll rest

end

end Snapshot

namespace Tree

def json (t : Tree) (name : Text) : Json :=
  .obj ((if name.isEmpty then [] else [("name", .str name)]) ++
    [("revision", .int t.revision), ("has_error", .bool t.hasError),
      ("sexp", .str (t.sexp?.getD #[])), ("root", t.snapshot.json)])

/-- The line for one leaf: its span, its kind, its text or what is missing, and
its field if it has one. Fails if the leaf lies outside the text. -/
def tokenLine? (t : Tree) (v : Visit) : Option String := do
  let start ← t.startPoint? v.toNode
  let stop ← t.endPoint? v.toNode
  let what ←
    if v.sub.isMissing then some ("MISSING\t" ++ v.sub.expected)
    else (t.textOf? v.toNode).map fun text => v.kind ++ "\t" ++ text.quoted
  some (start.render ++ "-" ++ stop.render ++ "\t" ++ what ++
    (if v.field = "" then "" else "\t" ++ v.field) ++ "\n")

def tokenList? (t : Tree) : Option String :=
  (t.rootNode.leaves.mapM t.tokenLine?).map String.join

end Tree

inductive Format where
  | sexp
  | json
  | tokens
  | highlight
  deriving DecidableEq, Repr

namespace Format

def name : Format → String
  | sexp => "sexp"
  | json => "json"
  | tokens => "tokens"
  | highlight => "highlight"

def all : List Format := [sexp, json, tokens, highlight]

def ofName (name : String) : Except Fault Format :=
  match all.find? (·.name == name) with
  | some f => .ok f
  | none => .error (.plain ("unknown format " ++ quoted name))

/-- Writes the tree of the text called `name`. Colours are used by documents,
and by highlighted text if `styles` has any. -/
def write (f : Format) (name : String) (t : Tree) (color : Bool) (styles : Styles) : Text :=
  match f with
  | sexp => (t.sexp?.getD #[]).push Text.newline
  | json => Text.ofString (Json.document { Json.Layout.tabbed with colored := color } (t.json (Text.ofString name)))
  | tokens => Text.ofString (t.tokenList?.getD "")
  | highlight => t.highlight styles

end Format

end MqTree
