import MqTree.Grammar.Table
import MqTree.Token

namespace MqTree

namespace Mq

def tok (sym : String) : Expr := .tok sym []

def commaSep (elem : Expr) (trailing : Bool) : Expr := .sepBy elem "," trailing

def stmts (field : String) (closers : List String) : Expr :=
  .stmts field (.ref "_statement") closers

def node (name : String) (items : List Expr) : Rule :=
  ⟨name, "", false, "", match items with | [e] => e | es => .seq es⟩

def kindNode (name kind : String) (items : List Expr) : Rule :=
  { node name items with kind }

def hidden (name label : String) (body : Expr) : Rule := ⟨name, "", true, label, body⟩

def bindingPowers : List (String × UInt8) :=
  [("||", 2), ("&&", 3), ("==", 5), ("!=", 5), ("<", 6), ("<=", 6), (">", 6), (">=", 6), ("..", 7),
    ("+", 10), ("-", 10), ("*", 11), ("/", 11), ("%", 11)]

def bracketed : Expr :=
  .seq [tok "[",
    .opt (.seq [.field "index" (.ref "_primary"),
      .opt (.seq [tok ":", .field "end" (.ref "_primary")])]),
    tok "]"]

def selectorSuffix : Expr :=
  .choice [.seq [tok ".", .field "property" (tok "identifier")], bracketed]

/-- What may follow a leading dot. Like a property after a base, it may be
separated from the dot. -/
def afterDot : Expr := .choice [.field "property" (tok "identifier"), bracketed]

def statements : List Rule :=
  [node sourceFile [stmts "" []],
    hidden "_statement" "statement" (.choice
      [.ref "module_expr", .ref "import_expr", .ref "include_expr", .ref "def_expr",
        .ref "let_expr", .ref "if_expr", .ref "match_expr", .ref "foreach_expr",
        .ref "while_expr", .ref "block_expr", .leaf "break_expr" "break",
        .leaf "continue_expr" "continue", .ref "leading_pipe", .ref "_expression"]),
    node "module_expr"
      [tok "module", .field "name" (tok "identifier"), tok ":", stmts "body" ["end"], tok "end"],
    node "import_expr" [tok "import", .field "path" (tok "string")],
    node "include_expr" [tok "include", .field "path" (tok "string")],
    node "def_expr"
      [tok "def", .field "name" (tok "identifier"),
        .opt (.field "params" (.ref "parameter_list")), tok ":",
        .ordered
          [.seq [.field "body" (.ref "_primary"), tok ";"],
            .seq [stmts "body" ["end"], tok "end"]]],
    node "parameter_list" [tok "(", commaSep (tok "identifier") false, tok ")"],
    node "let_expr"
      [tok "let", .field "name" (tok "identifier"), tok "=", .field "value" (.ref "_primary")],
    node "if_expr"
      [tok "if", .field "condition" (.ref "_expression"), tok ":",
        .field "body" (.ref "_primary"), .rep (.ref "elif_clause") 0, .opt (.ref "else_clause")],
    node "elif_clause"
      [tok "elif", .field "condition" (.ref "_expression"), tok ":",
        .field "body" (.ref "_primary")],
    node "else_clause" [tok "else", tok ":", .field "body" (.ref "_primary")]]

def patterns : List Rule :=
  [node "match_expr"
      [tok "match", .field "value" (.ref "_expression"), tok ":", .rep (.ref "match_arm") 1,
        tok "end"],
    node "match_arm"
      [tok "|", .field "pattern" (.ref "pattern"), .opt (.field "guard" (.ref "guard")), tok ":",
        .field "body" (.ref "_primary")],
    node "guard" [tok "if", .ref "_expression"],
    node "pattern"
      [.choice
        [.ref "literal_pattern", .ref "type_pattern", .ref "array_pattern", .ref "dict_pattern",
          .leaf "wildcard_pattern" "_", .ref "variable_pattern"]],
    node "literal_pattern"
      [.choice [tok "number", tok "string", .ref "_boolean", .leaf "none" "None"]],
    node "type_pattern"
      [tok ":",
        .immediate (.tok "identifier"
          ["string", "number", "array", "dict", "bool", "none", "markdown"])],
    node "array_pattern" [tok "[", commaSep (.ref "_pattern_element") false, tok "]"],
    hidden "_pattern_element" "pattern" (.choice [.ref "rest_pattern", .ref "variable_pattern"]),
    node "rest_pattern" [tok "..", .field "variable" (tok "identifier")],
    node "dict_pattern" [tok "\x7b", commaSep (.field "key" (tok "identifier")) false, tok "\x7d"],
    node "variable_pattern" [tok "identifier"]]

def blocks : List Rule :=
  [node "foreach_expr"
      [tok "foreach", tok "(", .field "variable" (tok "identifier"), tok ",",
        .field "iterable" (.ref "_expression"), tok ")", tok ":", stmts "body" ["end", ";"],
        .choice [tok "end", tok ";"]],
    node "while_expr"
      [tok "while", .field "condition" (.ref "_expression"), tok ":", stmts "body" ["end"],
        tok "end"],
    node "block_expr" [tok "do", stmts "body" ["end"], tok "end"],
    -- A pipe that continues the statement before it, as after a let.
    kindNode "leading_pipe" "pipe"
      [tok "|", .ref "_primary", .rep (.seq [tok "|", .ref "_primary"]) 0]]

def expressions : List Rule :=
  [hidden "_expression" "expression"
      (.suffixed (.ref "_primary") true [⟨"pipe", "", .seq [tok "|", .ref "_primary"]⟩]),
    hidden "_primary" "expression" (.binary "binary_expr" (.ref "_unary") bindingPowers),
    hidden "_unary" "expression" (.unary "unary_expr" ["!", "-"] (.ref "_postfixed")),
    hidden "_postfixed" "expression"
      (.suffixed (.ref "_atom") true
        [⟨"selector_expression", "base", .sameLine selectorSuffix⟩]),
    hidden "_atom" "expression" (.choice
      [.ref "_identifier_head", tok "number", tok "string", .ref "_boolean", .leaf "none" "None",
        .leaf "self" "self", .leaf "nodes" "nodes", .ref "symbol", .ref "array", .ref "dict",
        .ref "group_expression", .ref "function_expression", .ref "interpolated_string",
        .ref "dot_selector"]),
    hidden "_identifier_head" "identifier"
      (.suffixed (tok "identifier") false
        [⟨"qualified_access", "module",
            .seq [tok "::", .field "function" (tok "identifier"),
              .opt (.sameLine (.field "arguments" (.ref "argument_list")))]⟩,
          ⟨"call", "function", .sameLine (.field "arguments" (.ref "argument_list"))⟩]),
    hidden "_boolean" "boolean" (.choice [.leaf "boolean" "true", .leaf "boolean" "false"]),
    node "argument_list" [tok "(", commaSep (.ref "_primary") false, tok ")"],
    node "symbol" [tok ":", .immediate (tok "identifier")],
    node "array" [tok "[", commaSep (.ref "_primary") true, tok "]"],
    node "dict" [tok "\x7b", commaSep (.ref "dict_entry") true, tok "\x7d"],
    node "dict_entry"
      [.field "key" (.choice [tok "identifier", tok "string"]), tok ":",
        .field "value" (.ref "_primary")],
    node "group_expression" [tok "(", .ref "_primary", tok ")"],
    node "function_expression"
      [tok "fn", .opt (.field "params" (.ref "parameter_list")), tok ":",
        .field "body" (.ref "_primary"), tok ";"],
    node "interpolated_string"
      [tok "s\"",
        .rep (.choice [tok "string_content", tok "escaped_dollar", .ref "interpolation"]) 0,
        tok "\""],
    node "interpolation" [tok "$\x7b", .ref "_primary", tok "\x7d"],
    kindNode "dot_selector" "selector_expression"
      [tok ".", afterDot, .rep (.sameLine selectorSuffix) 0]]

def grammar : Grammar :=
  ⟨"mq", sourceFile, statements ++ patterns ++ blocks ++ expressions⟩

end Mq

def mq : Table := (Table.draft Mq.grammar).1

/-! The grammar of mq passes all checks, so that its table is the one that
building it gives. -/

namespace Mq

theorem declarations_sound :
    Grammar.declarationProblems [] grammar.rules ++ grammar.startProblems = [] := by
  decide +kernel

theorem references_sound : grammar.referenceProblems ++ grammar.symbolProblems = [] := by
  decide +kernel

theorem no_left_recursion : (Table.draft grammar).2 = [] := by
  decide +kernel

theorem rules_sound : mq.problems = [] := by
  decide +kernel

theorem draft_eq : Table.draft grammar = (mq, []) := by
  rw [mq, ← no_left_recursion]

theorem build_eq : Table.build grammar = .ok mq := by
  simp only [Table.build, declarations_sound, references_sound, draft_eq, List.map_nil,
    List.nil_append, rules_sound]

end Mq

end MqTree
