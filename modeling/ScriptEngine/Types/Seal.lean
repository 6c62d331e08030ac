import ScriptEngine.Types.Convert
import ScriptEngine.Types.Listing

/-! Sealing a registry of types.

At the seal the missing conversions are composed. From every type the registered
edges are followed breadth first, an inherited edge counting as an edge of the type;
for each type arrived at that has no conversion yet, the conversion to the type arrived
from is put before the edge that was followed. So every composed chain is a shortest
one, and later lookups need no search. -/
namespace ScriptEngine.TypeRegistry
variable {σ : Type}

/-- The registered edges out of a type or one of its supertypes: whose edge it is, and where it
leads. -/
def departures (r : TypeRegistry σ) (key : TypeKey) : List (TypeKey × TypeKey) :=
  (r.lineage key).flatMap fun via =>
    (r.registered.filter fun e => e.source == via).map fun e => (via, e.target)

/-- The types that conversions lead to from a type, with the steps that arrive there first. -/
def journeys (r : TypeRegistry σ) (source : TypeKey) : List (Search.Arrival TypeKey TypeKey) :=
  Search.search r.departures r.registered.length source

/-- The edge that takes a type along one more step. -/
def composite? (r : TypeRegistry σ) (source : TypeKey) (step : Search.Arrival TypeKey TypeKey) :
    Option (Edge σ) :=
  match r.entry? step.label step.target with
  | none => none
  | some last =>
    match r.edge? source step.source with
    | some first => some (first.followedBy last)
    | none => if r.isAssignable source step.source then some (last.rebased source) else none

/-- The registry with the conversion that one step asks for, unless there is one. -/
def compose (r : TypeRegistry σ) (source : TypeKey) (step : Search.Arrival TypeKey TypeKey) :
    TypeRegistry σ :=
  if r.converts source step.target then r
  else
    match r.composite? source step with
    | none => r
    | some e => { r with composed := r.composed.insert (source, step.target) e }

/-- The registry with the missing conversions from one type. -/
def composeFrom (r : TypeRegistry σ) (source : TypeKey) : TypeRegistry σ :=
  (r.journeys source).foldl (fun r step => r.compose source step) r

/-- The registry with the missing conversions from all types, in the order of registration. -/
def closure (r : TypeRegistry σ) : TypeRegistry σ :=
  r.keys.foldl (fun r source => r.composeFrom source) r

def sealed (r : TypeRegistry σ) : Outcome (TypeRegistry σ) :=
  if r.isSealed then refuse (.alreadySealed .types)
  else
    let closed := r.closure
    .ok { closed with listing := closed.sortedKeys, isSealed := true }

end ScriptEngine.TypeRegistry
