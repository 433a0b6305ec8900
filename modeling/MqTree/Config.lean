import MqTree.Duration
import MqTree.Fault
import MqTree.Toml.Reader

namespace MqTree

structure Config where
  window : Int
  debug : Bool
  listen : String
  sessionTtl : Duration
  sweepInterval : Duration
  maxTextBytes : Int
  deriving DecidableEq, Repr

namespace Config

/-- What a file says; what it leaves open is absent or zero. -/
structure Draft where
  window? : Option Int := none
  debug : Bool := false
  listen : String := ""
  sessionTtl : Duration := ⟨0⟩
  sweepInterval : Duration := ⟨0⟩
  maxTextBytes : Int := 0

def int? : Toml → Option Int
  | .int n => some n
  | _ => none

def bool? : Toml → Option Bool
  | .bool b => some b
  | _ => none

def string? : Toml → Option String
  | .str s => some s
  | _ => none

/-- A duration is written as text; a plain zero will do for it. -/
def duration? : Toml → Option Duration
  | .str s => Duration.ofString? s
  | .int n => Duration.ofString? (toString n)
  | _ => none

def settings : List (String × List String) :=
  [("parser", ["recovery_window", "debug"]),
    ("server", ["listen", "session_ttl", "sweep_interval", "max_text_bytes"])]

/-- Takes over one setting. Unknown ones are passed over here; a value of the
wrong type is refused. -/
def setOne (d : Draft) (table key : String) (v : Toml) : Option Draft :=
  if sameName table "parser" then
    if sameName key "recovery_window" then (int? v).map fun n => { d with window? := some n }
    else if sameName key "debug" then (bool? v).map fun b => { d with debug := b }
    else some d
  else if sameName table "server" then
    if sameName key "listen" then (string? v).map fun s => { d with listen := s }
    else if sameName key "session_ttl" then (duration? v).map fun t => { d with sessionTtl := t }
    else if sameName key "sweep_interval" then
      (duration? v).map fun t => { d with sweepInterval := t }
    else if sameName key "max_text_bytes" then (int? v).map fun n => { d with maxTextBytes := n }
    else some d
  else some d

def setTable (d : Draft) (table : String) (v : Toml) : Option Draft :=
  if settings.any fun s => sameName table s.1 then
    match v with
    | .table fields => fields.foldlM (fun d f => setOne d table f.1 f.2) d
    | _ => none
  else some d

def ofFields (fields : List (String × Toml)) : Option Draft :=
  fields.foldlM (fun d f => setTable d f.1 f.2) {}

def isKnown : Toml.Path → Bool
  | [table] => settings.any fun s => sameName table s.1
  | [table, key] => settings.any fun s => sameName table s.1 && s.2.any (sameName key)
  | _ => false

def orElse {α : Type} [DecidableEq α] (zero value default : α) : α :=
  if value = zero then default else value

def complete (d : Draft) : Config where
  window := d.window?.getD 2
  debug := d.debug
  listen := orElse "" d.listen "127.0.0.1:8080"
  sessionTtl := orElse ⟨0⟩ d.sessionTtl (.ofMinutes 30)
  sweepInterval := orElse ⟨0⟩ d.sweepInterval (.ofMinutes 1)
  maxTextBytes := orElse 0 d.maxTextBytes 1048576

def default : Config := complete {}

inductive Error where
  | missing
  | malformed
  | unknownKeys (path : String) (keys : List Toml.Path)
  | negativeWindow (n : Int)
  | negativeDuration
  | negativeSize (n : Int)

namespace Error

def message : Error → String
  | missing => "os.Stat"
  | malformed => "toml.DecodeFile"
  | unknownKeys path keys =>
      s!"unknown keys in {path}: " ++ ", ".intercalate (keys.map Toml.renderPath)
  | negativeWindow n => s!"parser.recovery_window must not be negative: {n}"
  | negativeDuration => "server durations must not be negative"
  | negativeSize n => s!"server.max_text_bytes must not be negative: {n}"

def fault (e : Error) : Fault := .tagged "ConfigError" [] (.plain e.message)

end Error

def validate (c : Config) : Except Error Config :=
  if c.window < 0 then .error (.negativeWindow c.window)
  else if c.sessionTtl.nanos < 0 || c.sweepInterval.nanos < 0 then .error .negativeDuration
  else if c.maxTextBytes < 0 then .error (.negativeSize c.maxTextBytes)
  else .ok c

def ofFile (path : String) (source : Text) : Except Error Config :=
  match Toml.read? source with
  | none => .error .malformed
  | some doc =>
      match ofFields doc.fields with
      | none => .error .malformed
      | some draft =>
          match doc.keys.filter (!isKnown ·) with
          | [] => validate (complete draft)
          | keys => .error (.unknownKeys path keys)

def isNameChar (c : Char) : Bool := c.isAlphanum || c == '_'

def isSpecialName (c : Char) : Bool := c.isDigit || "*#$@!?-".toList.contains c

/-- The name of the variable behind a dollar sign, and how many characters it
takes with its braces. The name is empty if there is none; what is taken then
is dropped. -/
def variableName (cs : List Char) : List Char × Nat :=
  match cs with
  | '\x7b' :: rest =>
      let name := rest.takeWhile (· != '\x7d')
      if name.length = rest.length then ([], 1) else (name, name.length + 2)
  | c :: _ =>
      if isSpecialName c then ([c], 1)
      else
        let name := cs.takeWhile isNameChar
        (name, name.length)
  | [] => ([], 0)

def expandFrom (env : String → String) : Nat → List Char → List Char
  | _, [] => []
  | skip + 1, _ :: rest => expandFrom env skip rest
  | 0, c :: rest =>
      if c == '$' && !rest.isEmpty then
        let (name, width) := variableName rest
        let value :=
          if !name.isEmpty then (env (String.ofList name)).toList
          else if 0 < width then [] else ['$']
        value ++ expandFrom env width rest
      else c :: expandFrom env 0 rest

def expand (env : String → String) (path : String) : String :=
  String.ofList (expandFrom env 0 path.toList)

def variableNamesFrom : Nat → List Char → List String
  | _, [] => []
  | skip + 1, _ :: rest => variableNamesFrom skip rest
  | 0, c :: rest =>
      if c == '$' then
        let (name, width) := variableName rest
        String.ofList name :: variableNamesFrom width rest
      else variableNamesFrom 0 rest

def variableNames (path : String) : List String := variableNamesFrom 0 path.toList

def load (env : String → String) (files : String → Option Text) (path : String) :
    Except Error Config :=
  let path := expand env path
  match files path with
  | none => .error .missing
  | some source => ofFile path source

def pathVariable : String := "MQ_CST_CONFIG"

def loadFromEnv (env : String → String) (files : String → Option Text) : Except Error Config :=
  if env pathVariable = "" then .ok default else load env files (env pathVariable)

end Config

end MqTree
