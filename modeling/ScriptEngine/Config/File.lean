import ScriptEngine.Config.Basic
import ScriptEngine.Yaml.Document

/-! Settings from a file.

A settings file is one YAML mapping, or empty. A setting that is not named keeps its
default, a name that is no setting's is passed over, and none may be named twice. -/
namespace ScriptEngine.Config

/-- The words for truth values. -/
def truth? (s : String) : Option Bool :=
  if s = "true" || s = "True" || s = "TRUE" then some true
  else if s = "false" || s = "False" || s = "FALSE" then some false
  else none

/-- The words for no value. -/
def isNothing (s : String) : Bool :=
  s = "" || s = "~" || s = "null" || s = "Null" || s = "NULL"

/-- The text of a scalar. -/
def text? (document n : Yaml.Node) : Option String :=
  match document.target? n with
  | some (.scalar _ _ text) => some text
  | _ => none

/-- A truth value: a plain scalar, or one written line by line and tagged as such. -/
def bool? (document n : Yaml.Node) : Option Bool :=
  match document.target? n with
  | some (.scalar ps style text) =>
    if style = .plain || (style = .literal && ps.tag = some (.ofText "tag:yaml.org,2002:bool")) then
      truth? text
    else none
  | _ => none

/-- A level: named by the word of a local tag before nothing, or by the text of a scalar without
such a word. -/
def verbosity? (document n : Yaml.Node) : Option Verbosity :=
  match document.target? n with
  | some (.scalar ps style text) =>
    match ps.tag.bind Yaml.Tag.word? with
    | some word => if style = .plain && isNothing text then Verbosity.ofCode? word else none
    | none => Verbosity.ofCode? text
  | _ => none

/-- The settings of a file so far; what has not been named is missing. -/
structure Named where
  verbosity : Option Verbosity
  logRegistryOrder : Option Bool
  memoize : Option Bool
  validatePatterns : Option Bool

/-- A setting that is named now; it must not have been named before. -/
def once {α : Type} (before now : Option α) : Option (Option α) :=
  match before, now with
  | none, some a => some (some a)
  | _, _ => none

/-- The settings with one more entry of the file. -/
def readEntry (document : Yaml.Node) (s : Named) (entry : Yaml.Node × Yaml.Node) :
    Option Named := do
  let name ← text? document entry.1
  if name = "verbosity" then
    return { s with verbosity := ← once s.verbosity (verbosity? document entry.2) }
  else if name = "log_registry_order" then
    return { s with logRegistryOrder := ← once s.logRegistryOrder (bool? document entry.2) }
  else if name = "memoize" then
    return { s with memoize := ← once s.memoize (bool? document entry.2) }
  else if name = "validate_patterns" then
    return { s with validatePatterns := ← once s.validatePatterns (bool? document entry.2) }
  else
    return s

/-- The settings that are named, and the defaults of the others. -/
def Named.settle (s : Named) : Config where
  verbosity := s.verbosity.getD default.verbosity
  logRegistryOrder := s.logRegistryOrder.getD default.logRegistryOrder
  memoize := s.memoize.getD default.memoize
  validatePatterns := s.validatePatterns.getD default.validatePatterns

/-- The settings of a document: a mapping, or nothing at all. -/
def ofDocument? : Yaml.Node → Option Config
  | .mapping ps entries =>
    (entries.foldlM (readEntry (.mapping ps entries)) ⟨none, none, none, none⟩).map Named.settle
  | .scalar _ style text => if style = .plain && text = "" then some default else none
  | _ => none

/-- The settings of the documents of a file, of which there may be one. -/
def ofDocuments? : List Yaml.Node → Option Config
  | [] => some default
  | [n] => ofDocument? n
  | _ => none

/-- The settings of a file with some text. -/
def ofText (text : String) : Outcome Config :=
  let cs := text.toList
  if (Text.trim cs).isEmpty then .ok default
  else
    match (Yaml.documents? cs).bind ofDocuments? with
    | some c => .ok c
    | none => refuse .malformedFile

end ScriptEngine.Config
