import ScriptEngine.Engine.Standard

/-! Starting an engine.

A manifest lists named steps of registration. They run in order up to the first that
fails, and what was registered until then stays. Starting an engine runs a manifest on
a new registry and seals it. -/
namespace ScriptEngine

/-- A run of registrations: the registry stays as it has become even if the run fails. -/
abbrev Registration (σ : Type) : Type → Type := ExceptT EngineError (StateT (Registry σ) (HostM σ))

namespace Registration
variable {σ α : Type}

def command (c : Command σ) : Registration σ Unit := do
  match (← get).apply c with
  | .error e => throw e
  | .ok r => set r

/-- Gives commands to the registry, up to the first that is refused. -/
def commands (cs : List (Command σ)) : Registration σ Unit := cs.forM command

def host (m : HostM σ α) : Registration σ α := ExceptT.lift (StateT.lift m)

end Registration

/-- A fault under the name of the step that it came from; other errors are as they are. -/
def EngineError.inStep (step : String) : EngineError → EngineError
  | .configuration fault => .configuration (.inStep step fault)
  | e => e

/-- Named steps of registration. -/
structure Manifest (σ : Type) where
  steps : List (String × Registration σ Unit)

namespace Manifest
variable {σ : Type}

def empty : Manifest σ := ⟨[]⟩

def step (m : Manifest σ) (name : String) (run : Registration σ Unit) : Manifest σ :=
  ⟨m.steps ++ [(name, run)]⟩

/-- The manifest of the built-in types. -/
def standard : Manifest σ := empty.step "defaults" (Registration.commands Standard.commands)

def stepNames (m : Manifest σ) : List String := m.steps.map (·.1)

def size (m : Manifest σ) : Nat := m.steps.length

/-- Runs one step, whose faults bear its name. -/
def runStep (step : String × Registration σ Unit) : Registration σ Unit :=
  ExceptT.mk do return (← step.2.run).mapError (EngineError.inStep step.1)

/-- Runs the steps in order, up to the first that fails. -/
def run (m : Manifest σ) : Registration σ Unit := m.steps.forM runStep

end Manifest

/-- Runs a manifest on a new registry and seals it. -/
def startup {σ : Type} (config : Config) (m : Manifest σ) : HostM σ (Outcome (Registry σ)) := do
  let (ran, r) ← m.run.run.run (Registry.initial config)
  match ran with
  | .error e => return .error e
  | .ok _ => return r.sealed

end ScriptEngine
