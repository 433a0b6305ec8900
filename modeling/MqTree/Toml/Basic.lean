namespace MqTree

inductive Toml where
  | str (s : String)
  | int (n : Int)
  | float (literal : String)
  | bool (b : Bool)
  | time (literal : String)
  | arr (items : List Toml)
  | table (fields : List (String × Toml))
  deriving Inhabited

namespace Toml

abbrev Path := List String

def isBareKeyChar (c : Char) : Bool := c.isAlphanum || c == '_' || c == '-'

def escapeKeyChar (c : Char) : String :=
  match c with
  | '"' => "\\\""
  | '\\' => "\\\\"
  | '\x08' => "\\b"
  | '\t' => "\\t"
  | '\n' => "\\n"
  | '\x0c' => "\\f"
  | '\r' => "\\r"
  | c =>
      if c.toNat < 32 || c.toNat == 127 then
        "\\u00" ++ String.ofList [Nat.digitChar (c.toNat / 16), Nat.digitChar (c.toNat % 16)]
      else c.toString

def renderKey (key : String) : String :=
  if key ≠ "" && key.toList.all isBareKeyChar then key
  else "\"" ++ String.join (key.toList.map escapeKeyChar) ++ "\""

def renderPath (path : Path) : String := ".".intercalate (path.map renderKey)

def field? (fields : List (String × Toml)) (key : String) : Option Toml := fields.lookup key

def setField (fields : List (String × Toml)) (key : String) (v : Toml) : List (String × Toml) :=
  if fields.any (·.1 == key) then fields.map fun f => if f.1 == key then (key, v) else f
  else fields ++ [(key, v)]

/-- Changes the table at the end of a path. Tables on the way that are not there
are made; in a list of tables, the last one is meant. -/
def update (f : List (String × Toml) → Option (List (String × Toml))) :
    Path → List (String × Toml) → Option (List (String × Toml))
  | [], fields => f fields
  | key :: path, fields =>
      match field? fields key with
      | none => (update f path []).map fun inner => setField fields key (.table inner)
      | some (.table inner) =>
          (update f path inner).map fun inner => setField fields key (.table inner)
      | some (.arr items) =>
          match items.getLast? with
          | some (.table inner) =>
              (update f path inner).map fun inner =>
                setField fields key (.arr (items.dropLast ++ [.table inner]))
          | _ => none
      | some _ => none

end Toml

end MqTree
