import MqTree.Command.Options
import MqTree.Config
import MqTree.Grammar.Catalog
import MqTree.Script.Reader

namespace MqTree

namespace Command

structure World where
  env : String → String
  files : String → Option Text
  stdin : Text

inductive Output where
  | usage
  | text (t : Text)

structure Outcome where
  exit : Nat
  output : Output
  log : List String

namespace Outcome

def ofText (log : List String) (t : Text) : Outcome := ⟨0, .text t, log⟩

def ofJson (j : Json) : Outcome := ofText [] (Text.ofString (Json.document Json.Layout.tabbed j))

def failed (log : List String) (what : String) (f : Fault) : Outcome :=
  ⟨1, .text #[], log ++ [what ++ ": " ++ f.message]⟩

def ofUsage : Usage → Outcome
  | .asked => ⟨0, .usage, []⟩
  | .wrong => ⟨1, .usage, []⟩

end Outcome

def settings (w : World) (o : Options) : Except Fault Config := do
  let c ←
    if o.config ≠ "" then
      (Config.load w.env w.files o.config).mapError fun e => .during "config.Load" e.fault
    else (Config.loadFromEnv w.env w.files).mapError fun e => .during "config.LoadFromEnv" e.fault
  pure { c with window := if 0 ≤ o.window then o.window else c.window, debug := c.debug || o.debug }

def parserOf (c : Config) : Parser := Parser.withWindow {} c.window

structure Source where
  name : String
  label : String
  text? : Option Text

def sources (w : World) (o : Options) : List Source :=
  if o.files.isEmpty then [⟨"-", "stdin", some w.stdin⟩]
  else o.files.map fun path => ⟨path, path, w.files path⟩

structure Parsed where
  result : Except Failure Tree
  log : List String

def parseSource (p : Parser) (script : Script) (s : Source) : Parsed :=
  match s.text? with
  | none => ⟨.error (.fault (.plain ("os.ReadFile(" ++ quoted s.name ++ ")"))), []⟩
  | some text =>
      match p.parseReported text with
      | .error v => ⟨.error (.violation v), []⟩
      | .ok parse =>
          let (reports, result) := script.replayFrom p 0 parse.tree
          let log := Parser.parseLog parse ++
            reports.flatMap fun (batch, r) => Parser.reparseLog batch r
          match result with
          | .ok tree => ⟨.ok tree, log⟩
          | .error e =>
              match e.failure with
              | .fault f => ⟨.error (.fault (.during s.label f)), log⟩
              | .violation v => ⟨.error (.violation v), log⟩

/-- Parses texts in order up to the first that fails. -/
def parseAll (p : Parser) (script : Script) :
    List Source → List String × Except Failure (List (String × Tree))
  | [] => ([], .ok [])
  | s :: rest =>
      let parsed := parseSource p script s
      match parsed.result with
      | .error f => (parsed.log, .error f)
      | .ok tree =>
          let (log, trees) := parseAll p script rest
          (parsed.log ++ log, trees.map ((s.name, tree) :: ·))

/-- Writes trees one after the other. Several trees get headings, which JSON has
no place for. -/
def writeAll (format : Format) (trees : List (String × Tree)) : Text :=
  trees.foldl
    (fun out (name, tree) =>
      let heading :=
        if 1 < trees.length && format != .json then Text.ofString s!"==> {name} <==\n" else #[]
      out ++ heading ++ format.write name tree false Styles.none)
    #[]

def parseAndWrite (w : World) (o : Options) (c : Config) (script : Script) : Outcome :=
  let (log, result) := parseAll (parserOf c) script (sources w o)
  let log := if c.debug then log else []
  match result with
  | .ok trees => .ofText log (writeAll o.format trees)
  | .error (.fault f) => .failed log "failed to parse" f
  | .error (.violation v) => ⟨2, .text #[], log ++ v.message?.toList⟩

/-- Serving sessions needs a listener, which a command has none of. -/
def serve (o : Options) : Outcome :=
  ⟨1, .text #[], ["Listen HTTP on " ++ o.listen, "failed to serve sessions"]⟩

def runOptions (w : World) (o : Options) : Outcome :=
  match settings w o with
  | .error f => .failed [] "failed to load config" f
  | .ok c =>
      if o.catalog then .ofJson mq.catalogJson
      else if o.highlightRules then .ofJson mq.highlightRulesJson
      else if o.listen ≠ "" then serve o
      else if o.edits = "" then parseAndWrite w o c []
      else
        match Script.load o.edits (w.files o.edits) with
        | .error f => .failed [] "failed to load edit script" f
        | .ok script => parseAndWrite w o c script

def run (w : World) (args : List String) : Outcome :=
  match Options.ofArgs args with
  | .error u => .ofUsage u
  | .ok o => runOptions w o

def paths (env : String → String) (args : List String) : List String :=
  match Options.ofArgs args with
  | .error _ => []
  | .ok o =>
      [Config.expand env o.config, Config.expand env (env Config.pathVariable), o.edits] ++ o.files

end Command

end MqTree
