import MqTree.Grammar.Table
import MqTree.Json.Basic
import MqTree.Token

namespace MqTree

/-! Display categories of leaves. Categories are open: a list of rules may name
any. -/

/-- Gives a category to the leaves of one kind. A parent or a field that is not
empty must be that of the leaf as well. -/
structure HighlightRule where
  kind : String
  parent : String
  field : String
  category : String
  deriving DecidableEq, Repr

namespace HighlightRule

def applies (r : HighlightRule) (parent field kind : String) : Bool :=
  r.kind == kind && (r.parent == "" || r.parent == parent) && (r.field == "" || r.field == field)

def json (r : HighlightRule) : Json :=
  .obj ([("kind", .string r.kind)] ++
    (if r.parent = "" then [] else [("parent", .string r.parent)]) ++
    (if r.field = "" then [] else [("field", .string r.field)]) ++
    [("category", .string r.category)])

def contextual : List HighlightRule :=
  [⟨"identifier", "call", "function", "function"⟩,
    ⟨"identifier", "qualified_access", "function", "function"⟩,
    ⟨"identifier", "qualified_access", "module", "module"⟩,
    ⟨"identifier", "module_expr", "name", "module"⟩,
    ⟨"identifier", "def_expr", "name", "function"⟩,
    ⟨"identifier", "parameter_list", "", "variable.parameter"⟩,
    ⟨"identifier", "selector_expression", "property", "property"⟩,
    ⟨"identifier", "dict_entry", "key", "property"⟩,
    ⟨"identifier", "dict_pattern", "key", "property"⟩,
    ⟨"identifier", "symbol", "", "constant"⟩,
    ⟨"identifier", "type_pattern", "", "type"⟩,
    ⟨":", "symbol", "", "constant"⟩,
    ⟨":", "type_pattern", "", "type"⟩,
    ⟨"string", "dict_entry", "key", "property"⟩,
    ⟨"s\"", "", "", "string"⟩,
    ⟨"\"", "", "", "string"⟩]

def general : List HighlightRule :=
  [(commentSymbol, "comment"), ("string", "string"), ("string_content", "string"),
    ("escaped_dollar", "string.escape"), ("number", "number"), ("boolean", "constant"),
    ("none", "constant"), ("self", "variable.builtin"), ("nodes", "variable.builtin"),
    ("wildcard_pattern", "variable.builtin"), ("break_expr", "keyword"),
    ("continue_expr", "keyword"), ("identifier", "variable"), (errorSymbol, "error")].map
      fun (kind, category) => ⟨kind, "", "", category⟩

def operators : List String :=
  ["|", "||", "&&", "==", "!=", "<", "<=", ">", ">=", "..", "+", "-", "*", "/", "%", "!", "=",
    "::"]

def ofSymbol (sym : String) : HighlightRule :=
  ⟨sym, "", "",
    if isKeyword sym then "keyword"
    else if operators.contains sym then "operator"
    else "punctuation"⟩

end HighlightRule

/-- The category of a leaf: that of the first rule that applies, or none. All
leaves of an error are errors. -/
def classify? (rules : List HighlightRule) (parent field kind : String) : Option String :=
  if parent = errorKind then some "error"
  else (rules.find? (·.applies parent field kind)).map HighlightRule.category

namespace Table

def highlightRules (t : Table) : List HighlightRule :=
  HighlightRule.contextual ++ HighlightRule.general ++
    (t.symbols.filter fun sym => !isNamedSymbol sym && sym != endSymbol).map HighlightRule.ofSymbol

def highlightRulesJson (t : Table) : Json := .arr (t.highlightRules.map HighlightRule.json)

end Table

end MqTree
