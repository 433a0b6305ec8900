import MqTree.Command.Basic

namespace MqTree

def usageText : String :=
  "Usage: mq-cst [-f FILE]... [--edits FILE] [--format sexp|json|tokens|highlight]\n" ++
  "              [--catalog] [--highlight-rules] [-l ADDRESS] [-c FILE]\n" ++
  "              [--recovery-window N] [--debug]\n"

def fileContent? (path : String) : IO (Option Text) := do
  try
    let bytes ← IO.FS.readBinFile path
    return some bytes.data
  catch _ =>
    return none

partial def allInput (stream : IO.FS.Stream) (seen : ByteArray) : IO ByteArray := do
  let more ← stream.read 65536
  if more.isEmpty then return seen else allInput stream (seen ++ more)

end MqTree

open MqTree in
def main (args : List String) : IO UInt32 := do
  let configPath := (← IO.getEnv Config.pathVariable).getD ""
  let names := Config.pathVariable :: (configPath :: args).flatMap Config.variableNames
  let values ← names.mapM fun name => do return (name, (← IO.getEnv name).getD "")
  let env (name : String) : String := (values.lookup name).getD ""
  let files ← (Command.paths env args).mapM fun path => do return (path, ← fileContent? path)
  let readsInput := match Command.Options.ofArgs args with
    | .ok o => o.files.isEmpty && !o.catalog && !o.highlightRules && o.listen.isEmpty
    | .error _ => false
  let stdin ← if readsInput then allInput (← IO.getStdin) .empty else pure .empty
  let outcome := Command.run
    { env, files := fun path => (files.lookup path).bind id, stdin := stdin.data } args
  for line in outcome.log do
    IO.eprintln line
  let out ← IO.getStdout
  match outcome.output with
  | .usage => out.putStr usageText
  | .text t => out.write ⟨t⟩
  return outcome.exit.toUInt32
