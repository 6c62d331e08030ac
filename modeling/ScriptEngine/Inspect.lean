import ScriptEngine.Config.File
import ScriptEngine.Engine.Manifest

/-! The inspection tool: starts an engine with the built-in types and prints its report. -/
namespace ScriptEngine.Inspect

/-- Where the settings come from. -/
inductive Source where
  | nowhere
  /-- A file, with its text if it could be read. -/
  | file (path : String) (text : Option String)

/-- What the tool leaves behind. -/
structure Result where
  exitCode : UInt32
  output : String
  complaint : String

/-- The result of an error, said as a headline with the causes under it. -/
def failed (headline : String) (causes : List EngineError) : Result :=
  let under := causes.map fun e => "\n\nCaused by:\n    " ++ e.message
  ⟨1, "", "Error: " ++ headline ++ String.join under ++ "\n"⟩

def settings : Source → Outcome Config
  | .nowhere => .ok .default
  | .file _ none => refuse .unreadableFile
  | .file _ (some text) => Config.ofText text

def Source.headline : Source → String
  | .nowhere => "loading"
  | .file path _ => "loading " ++ path

/-- Starts an engine and prints its report. -/
def report (config : Config) : Result :=
  match ((startup config Manifest.standard).run ()).value with
  | .error e => failed "registration failed" [e]
  | .ok r =>
    match r.report with
    | none => failed "registry did not produce a report" []
    | some report => ⟨0, report.print ++ "\n", ""⟩

/-- Runs the tool with a source of settings and a verbosity that the environment names. -/
def run (source : Source) (verbosity : Option String) : Result :=
  match settings source with
  | .error e => failed source.headline [e]
  | .ok config =>
    match config.withEnvironment verbosity with
    | .error e => failed e.message []
    | .ok config => report config

end ScriptEngine.Inspect
