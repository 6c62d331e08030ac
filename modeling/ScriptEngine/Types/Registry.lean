import ScriptEngine.Table
import ScriptEngine.Types.Descriptor
import ScriptEngine.Types.Edge
import ScriptEngine.Types.Relation

/-! The registry of types, converters and comparators.

A registry grows by registration until it is sealed. A registration is refused or
gives the registry with one thing more at its end; what was there before is never
touched. Edges composed at the seal are kept apart from the registered ones. -/
namespace ScriptEngine

/-- Types with the converters and comparators between them. -/
structure TypeRegistry (σ : Type) where
  isSealed : Bool
  /-- All types, in the order of registration. -/
  types : List (Descriptor σ)
  /-- The registered edges, in the order of registration. -/
  registered : List (Edge σ)
  /-- The edges composed at the seal, under the types they lead between. -/
  composed : Table (TypeKey × TypeKey) (Edge σ)
  /-- The comparators, in the order of registration. -/
  comparators : List (Comparator σ)
  /-- The order in which types are listed, fixed at the seal. -/
  listing : List TypeKey

namespace TypeRegistry
variable {σ : Type}

/-- The registry that knows the universal type only. -/
def initial : TypeRegistry σ where
  isSealed := false
  types := [.object]
  registered := []
  composed := .empty
  comparators := []
  listing := []

/-! ### Lookup -/

def descriptor? (r : TypeRegistry σ) (key : TypeKey) : Option (Descriptor σ) :=
  r.types.find? fun d => d.key == key

def contains (r : TypeRegistry σ) (key : TypeKey) : Bool := (r.descriptor? key).isSome

def keys (r : TypeRegistry σ) : List TypeKey := r.types.map (·.key)

/-- The registered edge between exactly two types. -/
def registeredEdge? (r : TypeRegistry σ) (source target : TypeKey) : Option (Edge σ) :=
  r.registered.find? fun e => e.source == source && e.target == target

/-- The edge, registered or composed, between exactly two types. -/
def entry? (r : TypeRegistry σ) (source target : TypeKey) : Option (Edge σ) :=
  match r.registeredEdge? source target with
  | some e => some e
  | none => r.composed.get? (source, target)

/-- The comparator of exactly two types. -/
def comparator? (r : TypeRegistry σ) (left right : TypeKey) : Option (Comparator σ) :=
  r.comparators.find? fun c => c.left == left && c.right == right

/-- The number of edges composed at the seal. -/
def composedCount (r : TypeRegistry σ) : Nat := r.composed.size

def edgeCount (r : TypeRegistry σ) : Nat := r.registered.length + r.composedCount

/-- Whether an edge comes no later than another when edges are listed by their two ends. -/
def listedBefore (a b : Edge σ) : Bool :=
  a.source.name < b.source.name || (a.source == b.source && a.target.name ≤ b.target.name)

/-- All edges, sorted by their two ends. -/
def edges (r : TypeRegistry σ) : List (Edge σ) :=
  (r.registered ++ r.composed.values).mergeSort listedBefore

/-- How much a registry holds, in words. -/
def inspect (r : TypeRegistry σ) : String :=
  "TypeRegistry \x7b sealed: " ++ toString r.isSealed ++ ", types: " ++ toString r.types.length ++
    ", converters: " ++ toString r.edgeCount ++ ", comparators: " ++
    toString r.comparators.length ++ " \x7d"

/-! ### Registration -/

/-- A sealed registry takes no registration. -/
def checkOpen (r : TypeRegistry σ) (what : Registrand) : Outcome Unit :=
  if r.isSealed then refuse (.closed what) else .ok ()

/-- A type that is mentioned must be registered. -/
def requireType (r : TypeRegistry σ) (key : TypeKey) : Outcome (Descriptor σ) :=
  match r.descriptor? key with
  | none => refuse (.unknownType key)
  | some d => .ok d

/-- A function that works on payloads of a shape must name a type with such payloads; the universal
type has payloads of every shape. -/
def checkEndpoint (r : TypeRegistry σ) (key : TypeKey) (shape : Shape) : Outcome Unit := do
  let d ← r.requireType key
  match d.native with
  | none => .ok ()
  | some held => if held = shape then .ok () else refuse (.wrongShape key held shape)

/-- A supertype must be registered, and share its shape unless it is universal. -/
def checkSupertype (r : TypeRegistry σ) (d : Descriptor σ) (parent : TypeKey) : Outcome Unit :=
  match r.descriptor? parent with
  | none => refuse (.unknownSupertype d.key parent)
  | some p =>
    match p.native with
    | none => .ok ()
    | some shape =>
      if d.native = some shape then .ok () else refuse (.foreignShape d.key parent shape)

/-- Supertypes are checked in the order they are declared. -/
def checkSupertypes (r : TypeRegistry σ) (d : Descriptor σ) : List TypeKey → Outcome Unit
  | [] => .ok ()
  | parent :: rest => do
    r.checkSupertype d parent
    r.checkSupertypes d rest

def registerType (r : TypeRegistry σ) (d : Descriptor σ) : Outcome (TypeRegistry σ) := do
  r.checkOpen (.type d.key)
  if r.contains d.key then
    refuse (.typeTaken d.key)
  else
    r.checkSupertypes d d.supertypes
    return { r with types := r.types ++ [d] }

/-- The registry with one more edge between types already checked. -/
def insertEdge (r : TypeRegistry σ) (e : Edge σ) : Outcome (TypeRegistry σ) :=
  if e.source = e.target then refuse (.selfConverter e.source)
  else if (r.entry? e.source e.target).isSome then refuse (.converterTaken e.source e.target)
  else .ok { r with registered := r.registered ++ [e] }

/-- The registry with a converter between payloads of two shapes. -/
def registerConverter (r : TypeRegistry σ) (source target : TypeKey) (input output : Shape)
    (convert : input.Carrier → HostM σ (Option output.Carrier)) : Outcome (TypeRegistry σ) := do
  r.checkOpen (.converter source target)
  r.checkEndpoint source input
  r.checkEndpoint target output
  r.insertEdge (.typed source target input output convert)

/-- The registry with an edge as it is; its conversion must tag its results with the edge's
target. -/
def registerEdge (r : TypeRegistry σ) (e : Edge σ) : Outcome (TypeRegistry σ) := do
  r.checkOpen (.converter e.source e.target)
  let _ ← r.requireType e.source
  let _ ← r.requireType e.target
  r.insertEdge e

def registerComparator (r : TypeRegistry σ) (c : Comparator σ) : Outcome (TypeRegistry σ) := do
  r.checkOpen (.comparator c.left c.right)
  r.checkEndpoint c.left c.leftShape
  r.checkEndpoint c.right c.rightShape
  if (r.comparator? c.left c.right).isSome then refuse (.comparatorTaken c.left c.right)
  else return { r with comparators := r.comparators ++ [c] }

end TypeRegistry

end ScriptEngine
