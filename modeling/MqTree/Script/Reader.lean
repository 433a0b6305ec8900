import MqTree.Json.Reader
import MqTree.Script.Basic
import MqTree.Yaml.Reader

namespace MqTree

/-! Scripts written down as JSON values: a list of steps, each of them an edit
or a list of edits. -/

namespace Json

def isWhole (literal : String) : Bool := !literal.toList.any (['.', 'e', 'E'].contains ·)

def wholeValue (literal : String) : Int :=
  match literal.toList with
  | '-' :: cs => -(Decimal.digitsValue cs : Int)
  | cs => Decimal.digitsValue cs

def typeName : Json → String
  | .null => "<nil>"
  | .bool _ => "bool"
  | .num literal => if isWhole literal then "int64" else "float64"
  | .str _ => "string"
  | .arr _ => "[]interface \x7b\x7d"
  | .obj _ => "map[string]interface \x7b\x7d"

mutual

/-- The first whole number that does not fit into 64 bits, with the way to it. -/
def numberFault? : Json → Option Fault
  | .num literal =>
      if isWhole literal && !fitsInt64 (wholeValue literal) then
        some (.plain ("strconv.ParseInt: parsing " ++ quoted literal ++ ": value out of range"))
      else none
  | .arr items => numberFaultOfItems? 0 items
  | .obj fields => numberFaultOfFields? fields
  | _ => none

def numberFaultOfItems? (index : Nat) : List Json → Option Fault
  | [] => none
  | j :: rest =>
      match numberFault? j with
      | some f => some (.during s!"[{index}]" f)
      | none => numberFaultOfItems? (index + 1) rest

def numberFaultOfFields? : List (String × Json) → Option Fault
  | [] => none
  | (key, j) :: rest =>
      match numberFault? j with
      | some f => some (.during key f)
      | none => numberFaultOfFields? rest

end

end Json

namespace Edit

def malformed : Fault := .plain "mapstructure.Decode"

/-- An offset, or nothing for null. A number that is not whole in spelling must
be so in floating point; the offset is `-2 ^ 63` if it is not in range. -/
def offset? : Json → Except Fault (Option Int64)
  | .null => .ok none
  | .num literal =>
      if Json.isWhole literal then .ok (some (Int64.ofInt (Json.wholeValue literal)))
      else
        match (Decimal.ofChars? literal.toList).bind Decimal.toInt? with
        | some n => .ok (some (if fitsInt64 n then Int64.ofInt n else Int64.minValue))
        | none => .error malformed
  | _ => .error malformed

def insertion? : Json → Except Fault (Option Text)
  | .null => .ok none
  | .str t => .ok (some t)
  | _ => .error malformed

def fieldOf (fields : List (String × Json)) (name : String) : Json :=
  ((fields.find? fun f => sameName f.1 name).map Prod.snd).getD .null

def fieldNames : List String := ["start", "old_end", "new_end", "text"]

def fieldsKnown (fields : List (String × Json)) : Bool :=
  fields.all (fun f => fieldNames.any (sameName f.1)) &&
    fieldNames.all (fun name => (fields.filter fun f => sameName f.1 name).length ≤ 1)

/-- An edit as its fields describe it. The old end is where it starts unless
given, and the new end is where its text ends. -/
def ofFields (fields : List (String × Json)) : Except Fault Edit := do
  let start? ← offset? (fieldOf fields "start")
  let oldEnd? ← offset? (fieldOf fields "old_end")
  let newEnd? ← offset? (fieldOf fields "new_end")
  let text? ← insertion? (fieldOf fields "text")
  if !fieldsKnown fields then throw malformed
  match start?, newEnd?, text? with
  | none, _, _ => throw (.plain "start is required")
  | some _, none, none => throw (.plain "text or new_end is required")
  | some start, some newEnd, text? => pure ⟨start, oldEnd?.getD start, newEnd, text?⟩
  | some start, none, some text =>
      pure ⟨start, oldEnd?.getD start, start + Int64.ofNat text.size, some text⟩

def ofItems (index : Nat) : List Json → Except Fault (List Edit)
  | [] => .ok []
  | j :: rest => do
      let e ← match j with
        | .obj fields => (ofFields fields).mapError (.during s!"[{index}]")
        | j => .error (.during s!"[{index}]" (.plain ("an edit must be a map, got " ++ j.typeName)))
      let es ← ofItems (index + 1) rest
      pure (e :: es)

def ofStep : Json → Except Fault (List Edit)
  | .obj fields => (ofFields fields).map ([·])
  | .arr [] => .error (.plain "empty batch")
  | .arr items => ofItems 0 items
  | j => .error (.plain ("invalid step type " ++ j.typeName))

end Edit

namespace Script

def ofSteps (index : Nat) : List Json → Except Fault Script
  | [] => .ok []
  | j :: rest => do
      let batch ← (Edit.ofStep j).mapError (.during s!"steps[{index}]")
      let batches ← ofSteps (index + 1) rest
      pure (batch :: batches)

def decoding {α : Type} (r : Except Fault α) : Except Fault α :=
  r.mapError (.tagged "DecodeError" [])

/-- A JSON value whose whole numbers are in range, with each name once. -/
def checked (j? : Option Json) : Except Fault Json :=
  match j?.map Json.settled with
  | none => .error (.plain "json.Decode")
  | some j =>
      match j.numberFault? with
      | some f => .error f
      | none => .ok j

def ofJson (j? : Option Json) : Except Fault Script := decoding do
  match ← checked j? with
  | .arr steps => ofSteps 0 steps
  | j => throw (.plain ("a script must be a list of steps, got " ++ j.typeName))

def batchOfJson (j? : Option Json) : Except Fault (List Edit) := decoding do
  match ← checked j? with
  | .arr items => Edit.ofStep (.arr items)
  | j => throw (.plain ("edits must be a list, got " ++ j.typeName))

def readJson (source : Text) : Except Fault Script := ofJson (Json.read? source)

def readBatch (source : Text) : Except Fault (List Edit) := batchOfJson (Json.read? source)

def readYaml (source : Text) : Except Fault Script :=
  match Yaml.read? source with
  | none => decoding (.error (.plain "yaml.YAMLToJSON"))
  | some j => ofJson j.passedOn?

def extensionOf (path : String) : String :=
  let last := ((path.toList.reverse.takeWhile (· != '/')).reverse)
  if last.contains '.' then
    String.ofList ('.' :: (last.reverse.takeWhile (· != '.')).reverse)
  else ""

/-- The script in a file. Its name tells whether it is JSON; anything else is
read as YAML. -/
def load (path : String) (file? : Option Text) : Except Fault Script :=
  match file? with
  | none => .error (.plain "os.Open")
  | some source =>
      if sameName (extensionOf path) ".json" then readJson source else readYaml source

end Script

end MqTree
