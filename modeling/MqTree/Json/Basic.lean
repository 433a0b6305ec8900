import MqTree.Text.Quoted

namespace MqTree

/-- A JSON value. Numbers are kept as they are spelled and objects in the order
of their keys; strings may hold any bytes. -/
inductive Json where
  | null
  | bool (b : Bool)
  | num (literal : String)
  | str (text : Text)
  | arr (items : List Json)
  | obj (fields : List (String × Json))
  deriving Inhabited

namespace Json

def int (i : Int) : Json := .num (toString i)

def string (s : String) : Json := .str (Text.ofString s)

structure Layout where
  indent : String
  /-- Whether `<`, `>` and `&` are escaped, so that the text can stand in
  markup. -/
  escapesMarkup : Bool
  colored : Bool

namespace Layout

def tabbed : Layout := ⟨"\t", false, false⟩

def response : Layout := ⟨"  ", true, false⟩

def paint (l : Layout) (code : String) (s : String) : String :=
  if l.colored then "\x1b[" ++ code ++ "m" ++ s ++ "\x1b[0m" else s

/-- Control characters are escaped, as are the line separators that end a line
in some programs. -/
def char (l : Layout) (c : Char) : String :=
  if c == '"' then "\\\""
  else if c == '\\' then "\\\\"
  else if c == '\n' then "\\n"
  else if c == '\r' then "\\r"
  else if c == '\t' then "\\t"
  else if c.toNat < 32 || c.toNat == 0x2028 || c.toNat == 0x2029 ||
      (l.escapesMarkup && (c == '<' || c == '>' || c == '&')) then
    "\\u" ++ Quoted.hex 4 c.toNat
  else c.toString

def string (l : Layout) (t : Text) : String :=
  let inner := (Rune.list t).foldl
    (fun out (r, _) => out ++ match r.char? with | some c => l.char c | none => "\\ufffd") ""
  "\"" ++ inner ++ "\""

def line (l : Layout) (depth : Nat) : String :=
  "\n" ++ String.join (List.replicate depth l.indent)

end Layout

mutual

def write (l : Layout) (depth : Nat) : Json → String
  | .null => l.paint "34" "null"
  | .bool b => l.paint "93" (if b then "true" else "false")
  | .num literal => l.paint "95" literal
  | .str t => l.paint "92" (l.string t)
  | .arr [] => "[]"
  | .arr items =>
      "[" ++ ",".intercalate (writeItems l (depth + 1) items) ++ l.line depth ++ "]"
  | .obj [] => "\x7b\x7d"
  | .obj fields =>
      "\x7b" ++ ",".intercalate (writeFields l (depth + 1) fields) ++ l.line depth ++ "\x7d"

def writeItems (l : Layout) (depth : Nat) : List Json → List String
  | [] => []
  | j :: rest => (l.line depth ++ write l depth j) :: writeItems l depth rest

def writeFields (l : Layout) (depth : Nat) : List (String × Json) → List String
  | [] => []
  | (key, j) :: rest =>
      (l.line depth ++ l.paint "96" (l.string (Text.ofString key)) ++ ": " ++ write l depth j) ::
        writeFields l depth rest

end

def document (l : Layout) (j : Json) : String := j.write l 0 ++ "\n"

end Json

end MqTree
