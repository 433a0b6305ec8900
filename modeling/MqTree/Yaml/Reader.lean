import MqTree.Yaml.Scalar

namespace MqTree

namespace Yaml

/-! Documents of nested lists and maps, laid out by indentation or between
brackets. -/

/-! ### Between brackets -/

def skipSpace : Nat → List Char → List Char
  | 0, cs => cs
  | fuel + 1, cs =>
      match cs.dropWhile fun c => isBlank c || c == '\n' || c == '\r' with
      | '#' :: rest => skipSpace fuel (rest.dropWhile (· != '\n'))
      | rest => rest

def skip (cs : List Char) : List Char := skipSpace cs.length cs

def isFlowMark (c : Char) : Bool :=
  c == ',' || c == '[' || c == ']' || c == '\x7b' || c == '\x7d'

def endsKey (cs : List Char) : Bool :=
  match cs with
  | [] => true
  | c :: _ => isBlank c || c == '\n' || c == '\r' || isFlowMark c

def flowWord (acc : List Char) : List Char → List Char × List Char
  | [] => (acc.reverse, [])
  | c :: rest =>
      if isFlowMark c || c == '\n' || (c == ':' && endsKey rest) ||
          (c == '#' && (acc.head?.any isBlank)) then
        (acc.reverse, c :: rest)
      else flowWord (c :: acc) rest

def trimRight (cs : List Char) : List Char :=
  (cs.reverse.dropWhile fun c => isBlank c || c == '\r').reverse

def flowScalar (cs : List Char) : Option (Json × List Char) :=
  match cs with
  | '"' :: _ | '\'' :: _ => (quotedWord? cs).map fun (s, rest) => (.string s, rest)
  | cs =>
      let (word, rest) := flowWord [] cs
      some (resolve (String.ofList (trimRight word)), rest)

def flowKey (cs : List Char) : Option (String × List Char) :=
  match cs with
  | '"' :: _ | '\'' :: _ => quotedWord? cs
  | cs =>
      let (word, rest) := flowWord [] cs
      if word.isEmpty then none else some (String.ofList (trimRight word), rest)

mutual

def flowValue : Nat → List Char → Option (Json × List Char)
  | 0, _ => none
  | fuel + 1, cs =>
      match skip cs with
      | '[' :: rest => (flowItems fuel [] rest).map fun (xs, rest) => (.arr xs.reverse, rest)
      | '\x7b' :: rest => (flowFields fuel [] rest).map fun (fs, rest) => (.obj fs, rest)
      | rest => flowScalar rest

def flowItems : Nat → List Json → List Char → Option (List Json × List Char)
  | 0, _, _ => none
  | fuel + 1, acc, cs =>
      match skip cs with
      | [] => none
      | ']' :: rest => some (acc, rest)
      | rest => do
          let (j, rest) ← flowValue fuel rest
          match skip rest with
          | ',' :: rest => flowItems fuel (j :: acc) rest
          | ']' :: rest => some (j :: acc, rest)
          | _ => none

def flowFields : Nat → List (String × Json) → List Char → Option (List (String × Json) × List Char)
  | 0, _, _ => none
  | fuel + 1, acc, cs =>
      match skip cs with
      | [] => none
      | '\x7d' :: rest => some (acc, rest)
      | rest => do
          let (name, rest) ← flowKey rest
          let (j, rest) ← match skip rest with
            | ':' :: rest => flowValue fuel rest
            | rest => some (.null, rest)
          let acc := acc ++ [(name, j)]
          match skip rest with
          | ',' :: rest => flowFields fuel acc rest
          | '\x7d' :: rest => some (acc, rest)
          | _ => none

end

/-! ### By indentation -/

structure Line where
  indent : Nat
  chars : List Char
  deriving DecidableEq, Repr

namespace Line

/-- A carriage return at the end belongs to the line break. -/
def ofChars (cs : List Char) : Line :=
  let rest := cs.dropWhile (· == ' ')
  ⟨cs.length - rest.length, if rest.getLast? == some '\r' then rest.dropLast else rest⟩

def toChars (l : Line) : List Char := List.replicate l.indent ' ' ++ l.chars

def isBlank (l : Line) : Bool := l.chars.all Yaml.isBlank

def isVoid (l : Line) : Bool := l.isBlank || l.chars.head? == some '#'

end Line

def splitLines (cs : List Char) : List Line := (cs.splitOn '\n').map Line.ofChars

def joinLines (cs : List Char) (rest : List Line) : List Char :=
  rest.foldl (fun out l => out ++ '\n' :: l.toChars) cs

def skipVoid (ls : List Line) : List Line := ls.dropWhile Line.isVoid

def isDash (cs : List Char) : Bool :=
  match cs with
  | ['-'] => true
  | '-' :: c :: _ => isBlank c
  | _ => false

def isVoidTail (cs : List Char) : Bool :=
  match cs.dropWhile isBlank with
  | [] => true
  | '#' :: _ => true
  | _ => false

def plainKey? (acc : List Char) : List Char → Option (List Char × List Char)
  | [] => none
  | c :: rest =>
      if c == ':' && (rest.head?.all isBlank) then some (acc.reverse, rest)
      else if c == '#' && acc.head?.any isBlank then none
      else plainKey? (c :: acc) rest

def splitKey? (cs : List Char) : Option (String × List Char) :=
  match cs with
  | [] => none
  | c :: _ =>
      if c == '"' || c == '\'' then do
        let (name, rest) ← quotedWord? cs
        match rest.dropWhile isBlank with
        | ':' :: after => if after.head?.all isBlank then some (name, after) else none
        | _ => none
      else if isFlowMark c || ['|', '>', '#', '&', '*', '!', '%', '@', '\x60'].contains c then none
      else (plainKey? [] cs).map fun (name, rest) => (String.ofList (trimRight name), rest)

inductive Chomp where
  | strip
  | clip
  | keep
  deriving DecidableEq

/-- The head of a block of text: how its end is treated and, if told, how far it
is indented. -/
def blockHead (chomp : Chomp) (indent? : Option Nat) : List Char → Option (Chomp × Option Nat)
  | [] => some (chomp, indent?)
  | c :: rest =>
      if c == '-' then blockHead .strip indent? rest
      else if c == '+' then blockHead .keep indent? rest
      else if c.isDigit then blockHead chomp (some (c.toNat - '0'.toNat)) rest
      else if isVoidTail (c :: rest) then some (chomp, indent?)
      else none

def foldLines : List (List Char) → List Char
  | [] => []
  | [l] => l
  | l :: l' :: rest =>
      if l.isEmpty then '\n' :: foldLines (l' :: rest)
      else if l'.isEmpty then l ++ foldLines (l' :: rest)
      else l ++ ' ' :: foldLines (l' :: rest)

def blockText (folded : Bool) (indent : Nat) (head : List Char) (ls : List Line) :
    Option (String × List Line) := do
  let (chomp, indent?) ← blockHead .clip none head
  let least := match indent? with
    | some n => indent - 1 + n
    | none => max indent ((ls.find? (!·.isBlank)).elim indent Line.indent)
  let body := ls.takeWhile fun l => l.isBlank || least ≤ l.indent
  let rest := ls.drop body.length
  let trailing := (body.reverse.takeWhile Line.isBlank).length
  let kept := body.take (body.length - trailing)
  let texts := kept.map fun l => List.replicate (l.indent - least) ' ' ++ l.chars
  let joined := if folded then foldLines texts else List.intercalate ['\n'] texts
  let ended := !kept.isEmpty && kept.length < ls.length
  let tail := match chomp with
    | .strip => []
    | .clip => if ended then ['\n'] else []
    | .keep => List.replicate (if rest.isEmpty then trailing else trailing + 1) '\n'
  some (String.ofList (joined ++ tail), rest)

def plainWord (acc : List Char) : List Char → List Char
  | [] => acc.reverse
  | c :: rest =>
      if c == '#' && acc.head?.any isBlank then acc.reverse else plainWord (c :: acc) rest

/-- A value that starts on a line and is no list or map by indentation. -/
def inlineValue (indent : Nat) (cs : List Char) (rest : List Line) : Option (Json × List Line) :=
  match cs with
  | [] => some (.null, rest)
  | c :: after =>
      if c == '|' || c == '>' then
        (blockText (c == '>') indent after rest).map fun (s, ls) => (.string s, ls)
      else if c == '[' || c == '\x7b' || c == '"' || c == '\'' then do
        let source := joinLines cs rest
        let (j, left) ← flowValue (source.length + 1) source
        match splitLines left with
        | [] => some (j, [])
        | l :: ls => if l.isVoid then some (j, ls) else none
      else if ['&', '*', '!', '%', '@', '\x60', ']', '\x7d', ','].contains c then none
      else
        let word := trimRight (plainWord [] cs)
        let more := rest.takeWhile fun l => !l.isVoid && indent ≤ l.indent
        let words := word :: more.map fun l => trimRight (plainWord [] l.chars)
        if more.any (fun l => (splitKey? l.chars).isSome) || (plainKey? [] word).isSome then none
        else some (resolve (String.ofList (List.intercalate [' '] words)), rest.drop more.length)

mutual

/-- The value on the lines indented by at least `indent`. -/
def block : Nat → Nat → List Line → Option (Json × List Line)
  | 0, _, _ => none
  | fuel + 1, indent, ls =>
      match skipVoid ls with
      | [] => some (.null, [])
      | l :: rest =>
          if l.indent < indent then some (.null, l :: rest)
          else if isDash l.chars then
            (blockItems fuel l.indent [] (l :: rest)).map fun (xs, ls) => (.arr xs.reverse, ls)
          else if (splitKey? l.chars).isSome then
            (blockFields fuel l.indent [] (l :: rest)).map fun (fs, ls) => (.obj fs, ls)
          else inlineValue indent l.chars rest

def blockItems : Nat → Nat → List Json → List Line → Option (List Json × List Line)
  | 0, _, _, _ => none
  | fuel + 1, indent, acc, ls =>
      match skipVoid ls with
      | [] => some (acc, [])
      | l :: rest =>
          if l.indent = indent && isDash l.chars then do
            let tail := l.chars.drop 1
            let content := tail.dropWhile isBlank
            let inner := if isVoidTail content then rest
              else ⟨indent + 1 + (tail.length - content.length), content⟩ :: rest
            let (j, ls) ← block fuel (indent + 1) inner
            blockItems fuel indent (j :: acc) ls
          else if indent < l.indent then none
          else some (acc, l :: rest)

def blockFields : Nat → Nat → List (String × Json) → List Line →
    Option (List (String × Json) × List Line)
  | 0, _, _, _ => none
  | fuel + 1, indent, acc, ls =>
      match skipVoid ls with
      | [] => some (acc, [])
      | l :: rest =>
          if l.indent = indent && !isDash l.chars then do
            let (name, after) ← splitKey? l.chars
            let (j, ls) ←
              if isVoidTail after then
                match skipVoid rest with
                | l' :: ls =>
                    if l'.indent = indent && isDash l'.chars then
                      (blockItems fuel indent [] (l' :: ls)).map fun (xs, ls) => (.arr xs.reverse, ls)
                    else block fuel (indent + 1) rest
                | [] => some (.null, [])
              else inlineValue (indent + 1) (after.dropWhile isBlank) rest
            blockFields fuel indent (acc ++ [(name, j)]) ls
          else if indent < l.indent then none
          else some (acc, l :: rest)

end

def isMarker (mark : String) (l : Line) : Bool :=
  l.indent = 0 && String.ofList (trimRight l.chars) == mark

def firstDocument (ls : List Line) : List Line :=
  let ls := match skipVoid ls with
    | l :: rest => if isMarker "---" l then rest else l :: rest
    | [] => []
  ls.takeWhile fun l => !isMarker "---" l && !isMarker "..." l

def read? (t : Text) : Option Json := do
  let cs := t.toStringLossy.toList
  let (j, rest) ← block (2 * cs.length + 2) 0 (firstDocument (splitLines cs))
  if (skipVoid rest).isEmpty then some j else none

end Yaml

namespace Json

mutual

/-- The value that a reader of JSON gets to see: strings are passed on in their
quoted form, which has escapes that JSON does not know, and not every number
has a numeral. -/
def passedOn? : Json → Option Json
  | .str t => read? (Text.ofString t.quoted)
  | .num literal => if Yaml.infinities.contains literal then none else some (.num literal)
  | .arr items => (itemsPassedOn? items).map .arr
  | .obj fields => (fieldsPassedOn? fields).map .obj
  | j => some j

def itemsPassedOn? : List Json → Option (List Json)
  | [] => some []
  | j :: rest => do
      let j ← passedOn? j
      let js ← itemsPassedOn? rest
      some (j :: js)

def fieldsPassedOn? : List (String × Json) → Option (List (String × Json))
  | [] => some []
  | (key, j) :: rest => do
      let _ ← read? (Text.ofString (quoted key))
      let j ← passedOn? j
      let fs ← fieldsPassedOn? rest
      some ((key, j) :: fs)

end

end Json

end MqTree
