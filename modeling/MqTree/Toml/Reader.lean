import MqTree.Decimal
import MqTree.Text.Basic
import MqTree.Toml.Basic

namespace MqTree

namespace Toml

/-! Reading of TOML. Every reader takes the characters that are left, and gives
back those behind what it read. -/

namespace Reader

abbrev Rest := List Char

def isBlank (c : Char) : Bool := c == ' ' || c == '\t'

def skipBlank (r : Rest) : Rest := r.dropWhile isBlank

def isControl (c : Char) : Bool := (c.toNat < 32 && c != '\t') || c.toNat == 127

def lineBreak? : Rest → Option Rest
  | '\n' :: r => some r
  | '\r' :: '\n' :: r => some r
  | _ => none

def comment? (r : Rest) : Option Rest :=
  match r with
  | '#' :: r =>
      let rest := r.dropWhile fun c => c != '\n' && c != '\r'
      let body := r.take (r.length - rest.length)
      if body.any isControl then none else some rest
  | r => some r

def endOfLine? (r : Rest) : Option Rest := do
  let r ← comment? (skipBlank r)
  match r with
  | [] => some []
  | r => lineBreak? r

def skipLines : Nat → Rest → Option Rest
  | 0, r => some r
  | fuel + 1, r => do
      let r ← comment? (skipBlank r)
      match lineBreak? r with
      | some r => skipLines fuel r
      | none => some r

def skip? (r : Rest) : Option Rest := skipLines (r.length + 1) r

/-! ### Strings -/

def hexDigit? (c : Char) : Option Nat :=
  if c.isDigit then some (c.toNat - '0'.toNat)
  else if 'a' ≤ c.toLower ∧ c.toLower ≤ 'f' then some (c.toLower.toNat - 'a'.toNat + 10)
  else none

def hexValue? (cs : List Char) : Option Nat :=
  (cs.mapM hexDigit?).map (·.foldl (fun n d => 16 * n + d) 0)

def codePoint? (width : Nat) (r : Rest) : Option (Char × Rest) := do
  let digits := r.take width
  if digits.length < width then none
  else
    let n ← hexValue? digits
    if n.isValidChar then some (Char.ofNat n, r.drop width) else none

def escapes : List (Char × Char) :=
  [('b', '\x08'), ('t', '\t'), ('n', '\n'), ('f', '\x0c'), ('r', '\r'), ('"', '"'), ('\\', '\\')]

def escape? : Rest → Option (Char × Rest)
  | 'u' :: r => codePoint? 4 r
  | 'U' :: r => codePoint? 8 r
  | c :: r => (escapes.lookup c).map fun e => (e, r)
  | [] => none

def lineString (quote : Char) : Nat → List Char → Rest → Option (String × Rest)
  | 0, _, _ => none
  | fuel + 1, acc, r =>
      match r with
      | [] => none
      | c :: r =>
          if c == quote then some (String.ofList acc.reverse, r)
          else if c == '\\' && quote == '"' then do
            let (e, r) ← escape? r
            lineString quote fuel (e :: acc) r
          else if isControl c then none
          else lineString quote fuel (c :: acc) r

/-- The rest of a string over several lines, up to three quotes. Two more may
stand right before them. A backslash at the end of a line joins it to the next
character that is no blank. -/
def blockString (quote : Char) : Nat → List Char → Rest → Option (String × Rest)
  | 0, _, _ => none
  | fuel + 1, acc, r =>
      match r with
      | [] => none
      | c :: r' =>
          if c == quote && (r.take 3 == [quote, quote, quote]) then
            let extra := min 2 ((r.drop 3).takeWhile (· == quote)).length
            some (String.ofList (List.replicate extra quote ++ acc).reverse, r.drop (3 + extra))
          else if c == '\\' && quote == '"' then
            if (lineBreak? (skipBlank r')).isSome then
              blockString quote fuel acc
                (r'.dropWhile fun c => isBlank c || c == '\n' || c == '\r')
            else do
              let (e, r) ← escape? r'
              blockString quote fuel (e :: acc) r
          else if c == '\n' then blockString quote fuel ('\n' :: acc) r'
          else if c == '\r' && r'.head? == some '\n' then blockString quote fuel (c :: acc) r'
          else if isControl c then none
          else blockString quote fuel (c :: acc) r'

def string? (r : Rest) : Option (String × Rest) :=
  match r with
  | c :: r =>
      if c != '"' && c != '\'' then none
      else if r.take 2 == [c, c] then
        let body := r.drop 2
        blockString c (body.length + 1) [] ((lineBreak? body).getD body)
      else lineString c (r.length + 1) [] r
  | [] => none

def key? (r : Rest) : Option (String × Rest) :=
  match r with
  | '"' :: r => lineString '"' (r.length + 1) [] r
  | '\'' :: r => lineString '\'' (r.length + 1) [] r
  | r =>
      let name := r.takeWhile isBareKeyChar
      if name.isEmpty then none else some (String.ofList name, r.drop name.length)

def path? : Nat → Rest → Option (Path × Rest)
  | 0, _ => none
  | fuel + 1, r => do
      let (name, r) ← key? (skipBlank r)
      match skipBlank r with
      | '.' :: r =>
          let (path, r) ← path? fuel r
          some (name :: path, r)
      | r => some ([name], r)

/-! ### Numbers and times -/

def digits? (isDigit : Char → Bool) (cs : List Char) : Option (List Char) :=
  let pieces := cs.splitOn '_'
  if pieces.all fun p => !p.isEmpty && p.all isDigit then some pieces.flatten else none

def digitIn (base : Nat) (c : Char) : Bool := (hexDigit? c).any (· < base)

def valueIn (base : Nat) (cs : List Char) : Int :=
  cs.foldl (fun n c => base * n + (hexDigit? c).getD 0) 0

def integer? (cs : List Char) : Option Toml := do
  let n ← match cs with
    | '0' :: 'x' :: ds => (digits? (digitIn 16) ds).map (valueIn 16)
    | '0' :: 'o' :: ds => (digits? (digitIn 8) ds).map (valueIn 8)
    | '0' :: 'b' :: ds => (digits? (digitIn 2) ds).map (valueIn 2)
    | cs =>
        let (negative, ds) := match cs with
          | '-' :: ds => (true, ds)
          | '+' :: ds => (false, ds)
          | ds => (false, ds)
        match digits? Char.isDigit ds with
        | some ('0' :: _ :: _) => none
        | some ds => some (if negative then -(valueIn 10 ds) else valueIn 10 ds)
        | none => none
  if fitsInt64 n then some (.int n) else none

def float? (cs : List Char) : Option Toml :=
  let unsigned := match cs with
    | '-' :: ds | '+' :: ds => ds
    | ds => ds
  if unsigned == ['i', 'n', 'f'] || unsigned == ['n', 'a', 'n'] then some (.float (String.ofList cs))
  else
    let mantissa := unsigned.takeWhile fun c => c != 'e' && c != 'E'
    let exponent := unsigned.drop mantissa.length
    let whole := mantissa.takeWhile (· != '.')
    let fraction := mantissa.drop whole.length
    let scale := match exponent.drop 1 with
      | '-' :: ds | '+' :: ds => ds
      | ds => ds
    let wholeFits := match digits? Char.isDigit whole with
      | some ('0' :: _ :: _) => false
      | some _ => true
      | none => false
    if (exponent.isEmpty && fraction.isEmpty) || !wholeFits then none
    else if !fraction.isEmpty && (digits? Char.isDigit (fraction.drop 1)).isNone then none
    else if !exponent.isEmpty && (digits? Char.isDigit scale).isNone then none
    else some (.float (String.ofList cs))

/-- Whether characters follow a pattern in which `d` stands for a digit. -/
def follows? (pattern : String) (cs : List Char) : Option Rest :=
  let ps := pattern.toList
  if cs.length < ps.length then none
  else if (ps.zip cs).all fun (p, c) => if p == 'd' then c.isDigit else p == c then
    some (cs.drop ps.length)
  else none

def skipFraction (cs : List Char) : List Char :=
  match cs with
  | '.' :: d :: rest => if d.isDigit then rest.dropWhile Char.isDigit else cs
  | cs => cs

def isOffset (cs : List Char) : Bool :=
  cs.isEmpty || cs == ['Z'] || cs == ['z'] ||
    follows? "+dd:dd" cs == some [] || follows? "-dd:dd" cs == some []

def time? (cs : List Char) : Option Toml :=
  let isTime (cs : List Char) (zoned : Bool) :=
    match follows? "dd:dd:dd" cs with
    | some rest => if zoned then isOffset (skipFraction rest) else (skipFraction rest).isEmpty
    | none => false
  let fits :=
    match follows? "dddd-dd-dd" cs with
    | some [] => true
    | some (sep :: rest) => (sep == 'T' || sep == 't' || sep == ' ') && isTime rest true
    | none => isTime cs false
  if fits then some (.time (String.ofList cs)) else none

def isWordChar (c : Char) : Bool :=
  c.isAlphanum || c == '+' || c == '-' || c == '_' || c == '.' || c == ':'

/-- The characters of a number, a time or a truth value. A blank may stand
between a date and a time of day. -/
def word (r : Rest) : List Char :=
  let first := r.takeWhile isWordChar
  match r.drop first.length with
  | ' ' :: rest =>
      let second := rest.takeWhile isWordChar
      if follows? "dddd-dd-dd" first == some [] && (follows? "dd:" second).isSome then
        first ++ ' ' :: second
      else first
  | _ => first

def scalar? (r : Rest) : Option (Toml × Rest) :=
  let w := word r
  let value :=
    if w == "true".toList then some (.bool true)
    else if w == "false".toList then some (.bool false)
    else (integer? w).orElse fun _ => (float? w).orElse fun _ => time? w
  value.map fun v => (v, r.drop w.length)

structure Value where
  toml : Toml
  keys : List Path

def addField (fields : List (String × Toml)) (path : Path) (v : Toml) :
    Option (List (String × Toml)) :=
  match path.getLast? with
  | none => none
  | some name =>
      update (fun fs => if fs.any (·.1 == name) then none else some (fs ++ [(name, v)]))
        path.dropLast fields

mutual

def value? : Nat → Rest → Option (Value × Rest)
  | 0, _ => none
  | fuel + 1, r =>
      match r with
      | [] => none
      | c :: after =>
          if c == '"' || c == '\'' then (string? r).map fun (s, r) => (⟨.str s, []⟩, r)
          else if c == '[' then items? fuel ⟨.arr [], []⟩ after
          else if c == '\x7b' then
            match skipBlank after with
            | '\x7d' :: r => some (⟨.table [], []⟩, r)
            | r => fields? fuel [] [] r
          else (scalar? r).map fun (v, r) => (⟨v, []⟩, r)

def items? : Nat → Value → Rest → Option (Value × Rest)
  | 0, _, _ => none
  | fuel + 1, acc, r => do
      let r ← skip? r
      match r with
      | ']' :: r => some (acc, r)
      | r =>
          let (v, r) ← value? fuel r
          let items := match acc.toml with | .arr xs => xs | _ => []
          let acc := ⟨.arr (items ++ [v.toml]), acc.keys ++ v.keys⟩
          let r ← skip? r
          match r with
          | ',' :: r => items? fuel acc r
          | ']' :: r => some (acc, r)
          | _ => none

def fields? : Nat → List (String × Toml) → List Path → Rest → Option (Value × Rest)
  | 0, _, _, _ => none
  | fuel + 1, fields, keys, r => do
      let (path, r) ← path? (r.length + 1) r
      match skipBlank r with
      | '=' :: r =>
          let (v, r) ← value? fuel (skipBlank r)
          let fields ← addField fields path v.toml
          let keys := keys ++ path :: v.keys.map (path ++ ·)
          match skipBlank r with
          | ',' :: r => fields? fuel fields keys r
          | '\x7d' :: r => some (⟨.table fields, keys⟩, r)
          | _ => none
      | _ => none

end

/-! ### Documents -/

structure Draft where
  fields : List (String × Toml)
  /-- Every key with the way to it, in order; a table's header is a key as
  well. -/
  keys : List Path
  /-- The tables that have a header, or need none. -/
  headed : List Path
  here : Path

/-- Starts a table. Each is started once, and keeps what is in it already. -/
def Draft.startTable (d : Draft) (path : Path) : Option Draft := do
  if d.headed.contains path then none
  else
    let fields ← update some path d.fields
    match path.getLast? with
    | none => none
    | some name =>
        let isList := (update (fun fs => match field? fs name with
          | some (.arr _) => none
          | _ => some fs) path.dropLast d.fields).isNone
        if isList then none
        else some ⟨fields, d.keys ++ [path], path :: d.headed, path⟩

def Draft.startItem (d : Draft) (path : Path) : Option Draft := do
  let name ← path.getLast?
  if d.headed.contains path then none
  else
    let fields ← update
      (fun fs => match field? fs name with
        | none => some (fs ++ [(name, .arr [.table []])])
        | some (.arr items) =>
            match items.getLast? with
            | some (.table _) => some (setField fs name (.arr (items ++ [.table []])))
            | _ => none
        | some _ => none)
      path.dropLast d.fields
    some ⟨fields, d.keys ++ [path], d.headed.filter (fun h => !(path.isPrefixOf h)), path⟩

/-- Adds a key and its value. A table that is written as a value is complete, and
gets no header. -/
def Draft.addPair (d : Draft) (path : Path) (v : Value) : Option Draft := do
  let fields ← update (fun fs => addField fs path v.toml) d.here d.fields
  let full := d.here ++ path
  let headed := match v.toml with
    | .table _ => full :: d.headed
    | _ => d.headed
  some { d with fields, headed, keys := d.keys ++ full :: v.keys.map (full ++ ·) }

def line? (d : Draft) (r : Rest) : Option (Draft × Rest) :=
  match r with
  | '[' :: '[' :: r => do
      let (path, r) ← path? (r.length + 1) r
      match r with
      | ']' :: ']' :: r =>
          let d ← d.startItem path
          let r ← endOfLine? r
          some (d, r)
      | _ => none
  | '[' :: r => do
      let (path, r) ← path? (r.length + 1) r
      match r with
      | ']' :: r =>
          let d ← d.startTable path
          let r ← endOfLine? r
          some (d, r)
      | _ => none
  | r => do
      let (path, r) ← path? (r.length + 1) r
      match r with
      | '=' :: r =>
          let (v, r) ← value? (2 * r.length + 2) (skipBlank r)
          let d ← d.addPair path v
          let r ← endOfLine? r
          some (d, r)
      | _ => none

def lines? : Nat → Draft → Rest → Option Draft
  | 0, _, _ => none
  | fuel + 1, d, r => do
      let r ← skip? r
      match r with
      | [] => some d
      | r =>
          let (d, r) ← line? d r
          lines? fuel d r

end Reader

structure Document where
  fields : List (String × Toml)
  keys : List Path

/-- Reads a document. A byte order mark in front is passed over. -/
def read? (t : Text) : Option Document := do
  let s ← t.toString?
  let cs := match s.toList with
    | '\uFEFF' :: cs => cs
    | cs => cs
  let d ← Reader.lines? (cs.length + 1) ⟨[], [], [], []⟩ cs
  some ⟨d.fields, d.keys⟩

end Toml

end MqTree
