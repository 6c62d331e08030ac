import ScriptEngine.Digest.Blake3
import ScriptEngine.Grammar.Registry
import ScriptEngine.Json.Printer

/-! Reports: what a sealed registry holds, as data.

A report lists everything in the order in which the registries hand it out, and ends
in a fingerprint. The fingerprint is taken of everything else, printed as one JSON
array without white space. -/
namespace ScriptEngine

/-- A type in a report. -/
structure TypeEntry where
  key : TypeKey
  plural : String
  userName : String
  supertypes : List TypeKey
  hasDefault : Bool
  hasChanger : Bool
  deriving DecidableEq

/-- A conversion in a report. -/
structure ConverterEntry where
  source : TypeKey
  target : TypeKey
  /-- The types passed through, both ends included. -/
  chain : List TypeKey
  composed : Bool
  deriving DecidableEq

/-- A construct in a report. -/
structure ConstructEntry where
  name : String
  kind : String
  rank : Option Rank
  type : Option TypeKey
  events : List String
  patterns : List String
  deriving DecidableEq

/-- What a sealed registry holds. -/
structure Report where
  version : String
  types : List TypeEntry
  converters : List ConverterEntry
  comparators : List (TypeKey × TypeKey)
  constructs : List ConstructEntry
  fingerprint : String
  deriving DecidableEq

/-! ### As JSON -/

def TypeKey.jsonNames (keys : List TypeKey) : Json := .strings (TypeKey.names keys)

/-- A member of an object that is left out when it has no items. -/
def Json.unlessEmpty (name : String) (items : List String) : List (String × Json) :=
  if items.isEmpty then [] else [(name, .strings items)]

/-- A member of an object that is left out when it is missing. -/
def Json.ifPresent (name : String) (text : Option String) : List (String × Json) :=
  match text with
  | none => []
  | some s => [(name, .string s)]

def TypeEntry.toJson (t : TypeEntry) : Json :=
  .object (
    [("key", .string t.key.name), ("plural", .string t.plural),
      ("user_name", .string t.userName)] ++
    Json.unlessEmpty "supertypes" (TypeKey.names t.supertypes) ++
    [("has_default", .bool t.hasDefault), ("has_changer", .bool t.hasChanger)])

def ConverterEntry.toJson (c : ConverterEntry) : Json :=
  .object [("from", .string c.source.name), ("to", .string c.target.name),
    ("chain", TypeKey.jsonNames c.chain), ("synthesized", .bool c.composed)]

/-- A pair of compared types as JSON. -/
def comparatorJson (pair : TypeKey × TypeKey) : Json := .strings [pair.1.name, pair.2.name]

def ConstructEntry.toJson (c : ConstructEntry) : Json :=
  .object (
    [("name", .string c.name), ("kind", .string c.kind)] ++
    Json.ifPresent "rank" (c.rank.map (·.code)) ++
    Json.ifPresent "return_type" (c.type.map (·.name)) ++
    Json.unlessEmpty "events" c.events ++
    [("patterns", .strings c.patterns)])

namespace Report

/-- What the fingerprint is taken of. -/
def catalog (r : Report) : Json :=
  .array [.string r.version, .array (r.types.map (·.toJson)),
    .array (r.converters.map (·.toJson)), .array (r.comparators.map comparatorJson),
    .array (r.constructs.map (·.toJson))]

def toJson (r : Report) : Json :=
  .object [("version", .string r.version), ("types", .array (r.types.map (·.toJson))),
    ("converters", .array (r.converters.map (·.toJson))),
    ("comparators", .array (r.comparators.map comparatorJson)),
    ("syntax", .array (r.constructs.map (·.toJson))), ("fingerprint", .string r.fingerprint)]

def print (r : Report) : String := r.toJson.pretty

/-- The fingerprint that a report must have; the one that it has makes no difference. -/
def computeFingerprint (r : Report) : String :=
  "blake3:" ++ Digest.hex (Digest.blake3 r.catalog.compact.toUTF8.toList)

/-! ### Reports of registries -/

def typeEntry {σ : Type} (d : Descriptor σ) : TypeEntry where
  key := d.key
  plural := d.plural
  userName := d.displayName
  supertypes := d.supertypes
  hasDefault := d.supplier.isSome
  hasChanger := d.changer.isSome

def converterEntry {σ : Type} (e : Edge σ) : ConverterEntry where
  source := e.source
  target := e.target
  chain := e.chain
  composed := e.isComposed

def constructEntry {σ : Type} (c : Construct σ) : ConstructEntry where
  name := c.name
  kind := c.kind.word
  rank := c.form.rank?
  type := c.form.type?
  events := c.form.events
  patterns := c.patterns

def currentVersion : String := "1.0.0"

def ofRegistries {σ : Type} (types : TypeRegistry σ) (grammar : Grammar σ) : Report :=
  let unsigned : Report :=
    { version := currentVersion
      types := (types.listing.filterMap types.descriptor?).map typeEntry
      converters := types.edges.map converterEntry
      comparators := types.comparators.map fun c => (c.left, c.right)
      constructs := grammar.constructs.map constructEntry
      fingerprint := "" }
  { unsigned with fingerprint := unsigned.computeFingerprint }

end Report

end ScriptEngine
