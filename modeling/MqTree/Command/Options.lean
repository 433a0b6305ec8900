import MqTree.Json.Basic
import MqTree.Render
import MqTree.Text.Unquoted

namespace MqTree

namespace Command

structure Options where
  files : List String := []
  edits : String := ""
  format : Format := .sexp
  catalog : Bool := false
  highlightRules : Bool := false
  listen : String := ""
  config : String := ""
  /-- The recovery window; a negative one leaves it to the settings. -/
  window : Int := -1
  debug : Bool := false

/-- A command line that gets the usage shown: it asks for it, or is not
understood. -/
inductive Usage where
  | asked
  | wrong
  deriving DecidableEq, Repr

inductive Setting where
  | file
  | edits
  | format
  | listen
  | config
  | window
  deriving DecidableEq, Repr

inductive Switch where
  | catalog
  | highlightRules
  | debug
  | help
  deriving DecidableEq, Repr

def settingNames : List (String × Setting) :=
  [("file", .file), ("edits", .edits), ("format", .format), ("listen", .listen),
    ("config", .config), ("recovery-window", .window)]

def switchNames : List (String × Switch) :=
  [("catalog", .catalog), ("highlight-rules", .highlightRules), ("debug", .debug),
    ("help", .help)]

def shortSettings : List (Char × Setting) := [('f', .file), ('l', .listen), ('c', .config)]

def integer? (s : String) : Option Int :=
  let (negative, digits) := match s.toList with
    | '-' :: ds => (true, ds)
    | '+' :: ds => (false, ds)
    | ds => (false, ds)
  if digits.isEmpty || !digits.all Char.isDigit then none
  else
    let n : Int := Decimal.digitsValue digits
    let n := if negative then -n else n
    if fitsInt64 n then some n else none

namespace Options

def set (o : Options) (s : Setting) (value : String) : Except Usage Options :=
  match s with
  | .file => .ok { o with files := o.files ++ [value] }
  | .edits => .ok { o with edits := value }
  | .format =>
      match Format.ofName value with
      | .ok format => .ok { o with format }
      | .error _ => .error .wrong
  | .listen => .ok { o with listen := value }
  | .config => .ok { o with config := value }
  | .window =>
      match integer? value with
      | some n => .ok { o with window := n }
      | none => .error .wrong

def setQuoted (o : Options) (s : Setting) (value : String) : Except Usage Options :=
  match unquoted? value with
  | some value => o.set s value
  | none => .error .wrong

def turnOn (o : Options) : Switch → Except Usage Options
  | .catalog => .ok { o with catalog := true }
  | .highlightRules => .ok { o with highlightRules := true }
  | .debug => .ok { o with debug := true }
  | .help => .error .asked

end Options

def isOption (arg : String) : Bool :=
  match arg.toList with
  | '-' :: '-' :: c :: _ => c != '-'
  | '-' :: c :: _ => c != '-'
  | _ => false

def canBeValue (s : Setting) (arg : String) : Bool :=
  arg != "--" && (!isOption arg ||
    (s == .window && match arg.toList with | '-' :: c :: _ => c.isDigit | _ => false))

/-- What an argument does: nothing, or set options, the last of which may wait
for its value. -/
def readOption (o : Options) (arg : String) : Except Usage (Options × Option Setting) :=
  match arg.toList with
  | '-' :: '-' :: cs =>
      let name := cs.takeWhile (· != '=')
      let value? := if name.length < cs.length then
        some (String.ofList (cs.drop (name.length + 1))) else none
      match settingNames.lookup (String.ofList name), switchNames.lookup (String.ofList name), value? with
      | some s, _, some value => (o.setQuoted s value).map fun o => (o, none)
      | some s, _, none => .ok (o, some s)
      | none, some s, none => (o.turnOn s).map fun o => (o, none)
      | none, _, _ => .error .wrong
  | '-' :: c :: cs =>
      match shortSettings.lookup c, cs with
      | some s, [] => .ok (o, some s)
      | some s, '=' :: value => (o.setQuoted s (String.ofList value)).map fun o => (o, none)
      | some s, value => (o.setQuoted s (String.ofList value)).map fun o => (o, none)
      | none, cs => .error (if c == 'h' && cs.head? != some '=' then .asked else .wrong)
  | _ => .ok (o, none)

/-- Reads arguments. `waiting` is the option that the next one is the value of.
Two dashes end the options, and other arguments are passed over. -/
def readArgs (o : Options) (waiting : Option Setting) : List String → Except Usage Options
  | [] => if waiting.isSome then .error .wrong else .ok o
  | arg :: rest =>
      match waiting with
      | some s =>
          if canBeValue s arg then
            match o.setQuoted s arg with
            | .ok o => readArgs o none rest
            | .error u => .error u
          else .error .wrong
      | none =>
          if arg = "--" then .ok o
          else if isOption arg then
            match readOption o arg with
            | .ok (o, waiting) => readArgs o waiting rest
            | .error u => .error u
          else readArgs o none rest

def Options.ofArgs (args : List String) : Except Usage Options := do
  let o ← readArgs {} none args
  if o.listen ≠ "" ∧ (o.files ≠ [] ∨ o.edits ≠ "") then throw .wrong
  pure o

end Command

end MqTree
