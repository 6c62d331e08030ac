import ScriptEngine.Grammar.Kinds
import ScriptEngine.Time
import ScriptEngine.Types.ChangeMode
import ScriptEngine.Value

/-! Everything that can be refused, and why.

An error says its cause; `EngineError.message` is the one place where causes are put
into words. A host's own refusals carry the host's words. -/
namespace ScriptEngine

/-! ### Registration and configuration -/

/-- What was to be registered. -/
inductive Registrand where
  | type (key : TypeKey)
  | converter (source target : TypeKey)
  | comparator (left right : TypeKey)
  | element (kind : ElementKind) (name : String)

/-- What can be sealed. -/
inductive Sealable where
  | types
  | grammar
  | registry

/-- Why a registration, a seal or a configuration was refused. -/
inductive ConfigurationFault where
  | closed (what : Registrand)
  | alreadySealed (part : Sealable)
  | sealedOutside (part : Sealable)
  | unknownType (key : TypeKey)
  | typeTaken (key : TypeKey)
  | unknownSupertype (key parent : TypeKey)
  | foreignShape (key parent : TypeKey) (shape : Shape)
  | wrongShape (key : TypeKey) (held given : Shape)
  | selfConverter (key : TypeKey)
  | converterTaken (source target : TypeKey)
  | comparatorTaken (left right : TypeKey)
  | noPatterns (kind : ElementKind) (name : String)
  | wrongProduct (kind : ElementKind) (name : String) (produced : ElementKind)
  | badTime (placeholder : String)
  | literalAndNoLiteral (placeholder : String)
  | emptyTypeName (placeholder : String)
  | unknownPatternType (kind : ElementKind) (name : String) (pattern : Nat) (typeName : String)
  | unknownVerbosity (text : String)
  | unreadableFile
  | malformedFile
  /-- The fault of a registration step, under the step's name. -/
  | inStep (step : String) (fault : ConfigurationFault)
  /-- A fault that the host put into words. -/
  | told (text : String)

def Registrand.words : Registrand → String
  | .type key => "type '" ++ key.name ++ "'"
  | .converter source target => "converter " ++ source.name ++ " -> " ++ target.name
  | .comparator left right => "comparator " ++ left.name ++ " <=> " ++ right.name
  | .element kind name => kind.word ++ " '" ++ name ++ "'"

def Sealable.words : Sealable → String
  | .types => "type registry"
  | .grammar => "syntax registry"
  | .registry => "registry"

def ConfigurationFault.words : ConfigurationFault → String
  | .closed what => "cannot register " ++ what.words ++ ": registering is disabled after seal"
  | .alreadySealed part => part.words ++ " is already sealed"
  | .sealedOutside part => part.words ++ " was sealed outside the registry"
  | .unknownType key => "unknown type '" ++ key.name ++ "'"
  | .typeTaken key => "type '" ++ key.name ++ "' is already registered"
  | .unknownSupertype key parent =>
    "type '" ++ key.name ++ "' declares unknown supertype '" ++ parent.name ++ "'"
  | .foreignShape key parent shape =>
    "type '" ++ key.name ++ "' must share the native shape of its supertype '" ++ parent.name ++
      "' (" ++ shape.name ++ ")"
  | .wrongShape key held given =>
    "type '" ++ key.name ++ "' holds " ++ held.name ++ " values, not " ++ given.name
  | .selfConverter key => "converter from '" ++ key.name ++ "' to itself"
  | .converterTaken source target =>
    "converter " ++ source.name ++ " -> " ++ target.name ++ " is already registered"
  | .comparatorTaken left right =>
    "comparator " ++ left.name ++ " <=> " ++ right.name ++ " is already registered"
  | .noPatterns kind name => kind.word ++ " '" ++ name ++ "' has no patterns"
  | .wrongProduct kind name produced =>
    kind.word ++ " '" ++ name ++ "' produced a " ++ produced.word
  | .badTime placeholder => "bad time in placeholder %" ++ placeholder ++ "%"
  | .literalAndNoLiteral placeholder => "placeholder %" ++ placeholder ++ "% is both * and ~"
  | .emptyTypeName placeholder => "empty type name in placeholder %" ++ placeholder ++ "%"
  | .unknownPatternType kind name pattern typeName =>
    kind.word ++ " '" ++ name ++ "' pattern " ++ toString pattern ++ " names unknown type '" ++
      typeName ++ "'"
  | .unknownVerbosity text => "unknown verbosity '" ++ text ++ "'"
  | .unreadableFile => "failed to read config file"
  | .malformedFile => "failed to parse config YAML"
  | .inStep step fault => step ++ ": " ++ fault.words
  | .told text => text

/-! ### Changes -/

/-- Why a change was refused. -/
inductive Refusal where
  | modeUnsupported (mode : ChangeMode)
  | deltaUnexpected (mode : ChangeMode)
  | deltaMissing (mode : ChangeMode)
  | deltaType (mode : ChangeMode) (type : TypeKey) (expected : List TypeKey)
  | unchangeable (node : String)
  /-- A refusal that the host put into words. -/
  | told (text : String)

def Refusal.words : Refusal → String
  | .modeUnsupported mode => mode.word ++ " is not supported here"
  | .deltaUnexpected mode => mode.word ++ " does not take a value"
  | .deltaMissing mode => mode.word ++ " requires a value"
  | .deltaType mode type expected =>
    "cannot " ++ mode.word ++ " a " ++ type.name ++ " value; expected " ++
      String.intercalate " or " (TypeKey.names expected)
  | .unchangeable node => node ++ " cannot be changed"
  | .told text => text

/-! ### All errors -/

/-- Why the engine refused something. -/
inductive EngineError where
  /-- Something inconsistent was registered, or registered too late. -/
  | configuration (fault : ConfigurationFault)
  /-- No conversion leads from one type to another; found while binding, never while evaluating. -/
  | conversionUnavailable (source target : TypeKey)
  /-- An operation that its target does not support. -/
  | unsupported (refusal : Refusal)
  /-- A node that has no state of its own for the requested time. -/
  | timeRejected (node : String) (requested : Time)

def EngineError.message : EngineError → String
  | .configuration fault => "CONFIG/" ++ fault.words
  | .conversionUnavailable source target =>
    "CONVERT/no conversion from " ++ source.name ++ " to " ++ target.name
  | .unsupported refusal => "UNSUPPORTED/" ++ refusal.words
  | .timeRejected node requested =>
    "TIME/" ++ node ++ " has no distinct " ++ requested.word ++ " state"

/-- What an operation that may be refused comes to. -/
abbrev Outcome (α : Type) : Type := Except EngineError α

/-- A refusal with a fault. -/
def refuse {α : Type} (fault : ConfigurationFault) : Outcome α := .error (.configuration fault)

end ScriptEngine
