import ScriptEngine.Inspect

/-! The command line of the inspection tool: `[config.yaml]`, with the verbosity in
`QUILL_VERBOSITY`. -/

def main (args : List String) : IO UInt32 := do
  let verbosity ← IO.getEnv "QUILL_VERBOSITY"
  let source : ScriptEngine.Inspect.Source ←
    match args.head? with
    | none => pure .nowhere
    | some path =>
      try
        let text ← IO.FS.readFile path
        pure (.file path (some text))
      catch _ =>
        pure (.file path none)
  let result := ScriptEngine.Inspect.run source verbosity
  IO.print result.output
  IO.eprint result.complaint
  return result.exitCode
