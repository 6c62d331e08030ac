import ScriptEngine.Engine.Report
import ScriptEngine.Json.Reading

/-! Reading reports.

Every part of a report may be written as an object, with its members in any order and
unknown ones passed over, or as an array of all its fields in their order. In an object
the supertypes, the events, the rank and the yielded type may be missing. -/
namespace ScriptEngine.Json

/-- The fields of a part of a report: by name, or in order. -/
def fields? (names : List String) : Json → Option (String → Option Json)
  | .object members => some fun name => member? name members
  | .array items =>
    if items.length = names.length then some fun name => items[names.idxOf name]? else none
  | _ => none

/-- All items of an array, each read in the same way. -/
def list? {α : Type} (item? : Json → Option α) (j : Json) : Option (List α) := do
  (← j.array?).mapM item?

/-- A list that may be missing. -/
def listOrEmpty? {α : Type} (item? : Json → Option α) : Option Json → Option (List α)
  | none => some []
  | some j => j.list? item?

/-- A value that may be missing or null. -/
def optional? {α : Type} (value? : Json → Option α) : Option Json → Option (Option α)
  | none => some none
  | some .null => some none
  | some j => (value? j).map some

def key? (j : Json) : Option TypeKey := j.string?.map TypeKey.mk

/-- A rank: its name, or an object with null under its name. -/
def rank? : Json → Option Rank
  | .string s => Rank.ofCode? s
  | .object [(name, .null)] => Rank.ofCode? name
  | _ => none

def typeEntry? (j : Json) : Option TypeEntry := do
  let field ← j.fields? ["key", "plural", "user_name", "supertypes", "has_default", "has_changer"]
  return {
    key := ← (← field "key").key?
    plural := ← (← field "plural").string?
    userName := ← (← field "user_name").string?
    supertypes := ← listOrEmpty? key? (field "supertypes")
    hasDefault := ← (← field "has_default").bool?
    hasChanger := ← (← field "has_changer").bool? }

def converterEntry? (j : Json) : Option ConverterEntry := do
  let field ← j.fields? ["from", "to", "chain", "synthesized"]
  return {
    source := ← (← field "from").key?
    target := ← (← field "to").key?
    chain := ← (← field "chain").list? key?
    composed := ← (← field "synthesized").bool? }

def comparator? : Json → Option (TypeKey × TypeKey)
  | .array [left, right] => do return (← left.key?, ← right.key?)
  | _ => none

def constructEntry? (j : Json) : Option ConstructEntry := do
  let field ← j.fields? ["name", "kind", "rank", "return_type", "events", "patterns"]
  return {
    name := ← (← field "name").string?
    kind := ← (← field "kind").string?
    rank := ← optional? rank? (field "rank")
    type := ← optional? key? (field "return_type")
    events := ← listOrEmpty? string? (field "events")
    patterns := ← (← field "patterns").list? string? }

def report? (j : Json) : Option Report := do
  let field ← j.fields?
    ["version", "types", "converters", "comparators", "syntax", "fingerprint"]
  return {
    version := ← (← field "version").string?
    types := ← (← field "types").list? typeEntry?
    converters := ← (← field "converters").list? converterEntry?
    comparators := ← (← field "comparators").list? comparator?
    constructs := ← (← field "syntax").list? constructEntry?
    fingerprint := ← (← field "fingerprint").string? }

end ScriptEngine.Json

/-- The report that a text holds. -/
def ScriptEngine.Report.read? (text : String) : Option Report :=
  (Json.read? text).bind Json.report?
