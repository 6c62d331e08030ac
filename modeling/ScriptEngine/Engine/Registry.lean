import ScriptEngine.Config.Basic
import ScriptEngine.Engine.Report
import ScriptEngine.Types.Seal

/-! The registry that an engine runs on: types and grammar behind one seal.

The whole is sealed at once, after everything has been checked, and then reports what
it holds. A registry of which one half was sealed on its own is never sealed as a
whole. -/
namespace ScriptEngine

/-- Types and grammar, with the engine's settings, and the report once all is sealed. -/
structure Registry (σ : Type) where
  types : TypeRegistry σ
  grammar : Grammar σ
  config : Config
  report : Option Report

namespace Registry
variable {σ : Type}

def initial (config : Config) : Registry σ := ⟨.initial, .initial, config, none⟩

/-- Both halves are sealed. -/
def isSealed (r : Registry σ) : Bool := r.types.isSealed && r.grammar.isSealed

def fingerprint? (r : Registry σ) : Option String := r.report.map (·.fingerprint)

/-- A registry is sealed as a whole, or not at all. -/
def checkSealable (r : Registry σ) : Outcome Unit :=
  if r.isSealed then refuse (.alreadySealed .registry)
  else if r.types.isSealed then refuse (.sealedOutside .types)
  else if r.grammar.isSealed then refuse (.sealedOutside .grammar)
  else if r.config.validatePatterns then r.grammar.validatePatterns r.types
  else .ok ()

/-- The registry with both halves sealed, and with its report. -/
def sealed (r : Registry σ) : Outcome (Registry σ) := do
  r.checkSealable
  let types ← r.types.sealed
  let grammar ← r.grammar.sealed
  return { r with
    types := types, grammar := grammar, report := some (.ofRegistries types grammar) }

end Registry

/-! ### Commands -/

/-- One thing that is done to a registry at startup. -/
inductive Command (σ : Type) where
  | type (descriptor : Descriptor σ)
  | converter (source target : TypeKey) (input output : Shape)
      (convert : input.Carrier → HostM σ (Option output.Carrier))
  | edge (edge : Edge σ)
  | comparator (comparator : Comparator σ)
  | construct (construct : Construct σ)
  | sealTypes
  | sealGrammar
  | sealAll

namespace Registry
variable {σ : Type}

def withTypes (r : Registry σ) (types : TypeRegistry σ) : Registry σ := { r with types := types }

def withGrammar (r : Registry σ) (grammar : Grammar σ) : Registry σ :=
  { r with grammar := grammar }

/-- The registry after a command, or why the command is refused. -/
def apply (r : Registry σ) : Command σ → Outcome (Registry σ)
  | .type d => (r.types.registerType d).map r.withTypes
  | .converter source target input output convert =>
    (r.types.registerConverter source target input output convert).map r.withTypes
  | .edge e => (r.types.registerEdge e).map r.withTypes
  | .comparator c => (r.types.registerComparator c).map r.withTypes
  | .construct c => (r.grammar.register c).map r.withGrammar
  | .sealTypes => r.types.sealed.map r.withTypes
  | .sealGrammar => r.grammar.sealed.map r.withGrammar
  | .sealAll => r.sealed

end Registry

end ScriptEngine
