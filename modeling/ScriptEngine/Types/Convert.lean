import ScriptEngine.Search.Breadth
import ScriptEngine.Types.Registry

/-! Supertypes and conversions.

The supertypes of a type are all types that declared supertypes lead to, nearest
first. A value of a type is a value of the type itself, of each of its supertypes and
of the universal type.

A conversion of a type is one that the type has itself or inherits from its nearest
supertype that has one. A value that is of the wanted type already is left as it is. -/
namespace ScriptEngine.TypeRegistry
variable {σ : Type}

/-! ### Supertypes -/

def declared (r : TypeRegistry σ) (key : TypeKey) : List TypeKey :=
  match r.descriptor? key with
  | none => []
  | some d => d.supertypes

/-- All supertypes of a type, nearest first. -/
def ancestors (r : TypeRegistry σ) (key : TypeKey) : List TypeKey :=
  (Search.search (fun k => (r.declared k).map fun p => ((), p)) r.types.length key).map (·.target)

/-- A type and all its supertypes, nearest first. -/
def lineage (r : TypeRegistry σ) (key : TypeKey) : List TypeKey := key :: r.ancestors key

/-- Values of one type are values of the other as they are. -/
def isAssignable (r : TypeRegistry σ) (source target : TypeKey) : Bool :=
  source == target || target.isObject || (r.ancestors source).contains target

/-! ### Conversions -/

/-- The edge from a type, or from its nearest supertype that has one, to another type. -/
def edge? (r : TypeRegistry σ) (source target : TypeKey) : Option (Edge σ) :=
  (r.lineage source).findSome? fun k => r.entry? k target

/-- Whether values of one type can become values of another. -/
def converts (r : TypeRegistry σ) (source target : TypeKey) : Bool :=
  r.isAssignable source target || (r.edge? source target).isSome

/-- What an edge makes of a value; nothing where there is no edge. -/
def convertBy (r : TypeRegistry σ) (v : Value) (target : TypeKey) : HostM σ (Option Value) :=
  match r.edge? v.type target with
  | none => pure none
  | some e => e.apply v

/-- The value as a value of a type, if it can be one. -/
def convert (r : TypeRegistry σ) (v : Value) (target : TypeKey) : HostM σ (Option Value) :=
  if r.isAssignable v.type target then pure (some v) else r.convertBy v target

/-- All values as values of a type; nothing is asked after the first that cannot be one. -/
def convertAll (r : TypeRegistry σ) (target : TypeKey) : List Value → HostM σ (Option (List Value))
  | [] => pure (some [])
  | v :: rest => do
    match ← r.convert v target with
    | none => return none
    | some v' => return (← r.convertAll target rest).map (v' :: ·)

end ScriptEngine.TypeRegistry
