import ScriptEngine.Error
import ScriptEngine.Text.Basic

/-! The settings of an engine, among them how much it says while it runs. -/
namespace ScriptEngine

/-- How much the engine says. -/
inductive Verbosity where
  | low
  | normal
  | high
  | veryHigh
  | debug
  deriving DecidableEq

namespace Verbosity

/-- All levels, the quietest first. -/
def all : List Verbosity := [.low, .normal, .high, .veryHigh, .debug]

/-- The place of a level, counted from the quietest. -/
def level : Verbosity → Nat
  | .low => 0
  | .normal => 1
  | .high => 2
  | .veryHigh => 3
  | .debug => 4

def code : Verbosity → String
  | .low => "low"
  | .normal => "normal"
  | .high => "high"
  | .veryHigh => "very_high"
  | .debug => "debug"

def ofCode? (s : String) : Option Verbosity := all.find? fun v => v.code == s

/-- A level's name with case, blanks around it and the kind of stroke in it made uniform. -/
def normalize (s : String) : String :=
  String.ofList ((Text.asciiLower (Text.trim s.toList)).map fun c => if c = '-' then '_' else c)

/-- The level that a person names. -/
def read (s : String) : Outcome Verbosity :=
  let name := normalize s
  if name = "veryhigh" then .ok .veryHigh
  else
    match ofCode? name with
    | some v => .ok v
    | none => refuse (.unknownVerbosity name)

end Verbosity

structure Config where
  verbosity : Verbosity
  /-- Whether the order of types is told when the registry is sealed. -/
  logRegistryOrder : Bool
  /-- Whether every running event gets a cache. -/
  memoize : Bool
  /-- Whether patterns must name registered types for the registry to be sealed. -/
  validatePatterns : Bool
  deriving DecidableEq

namespace Config

def default : Config := ⟨.normal, false, false, true⟩

/-- Whether the engine says what is meant for a level. -/
def logs (c : Config) (level : Verbosity) : Bool := level.level ≤ c.verbosity.level

def isDebug (c : Config) : Bool := c.logs .debug

/-- The settings with the verbosity that the environment names, if it names one. -/
def withEnvironment (c : Config) (named : Option String) : Outcome Config :=
  match named with
  | none => .ok c
  | some s => do return { c with verbosity := ← Verbosity.read s }

end Config

end ScriptEngine
