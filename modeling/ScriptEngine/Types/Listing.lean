import ScriptEngine.Types.Registry

/-! The order in which types are listed.

A type comes before the types it asks to precede, after those it asks to follow,
before its supertypes and before the universal type. The types go by their places in
the order of registration. Of those that wait for no other, the earliest is listed next,
and whoever is behind it waits for one fewer. Types whose turn never comes, since they
wait for a circle of types that wait for each other, follow in the order of registration. -/
namespace ScriptEngine.Listing

/-! ### Who waits for whom -/

/-- Which places wait for which. -/
structure Waiting where
  /-- The places that wait for a place. -/
  behind : Nat → List Nat
  /-- The number of places that a place waits for. -/
  ahead : Nat → Nat

namespace Waiting

def none : Waiting := ⟨fun _ => [], fun _ => 0⟩

/-- Has the second place wait for the first one; a place never waits for itself, nor for another
twice. -/
def add (w : Waiting) (first second : Nat) : Waiting :=
  if first = second || (w.behind first).contains second then w
  else {
    behind := fun i => if i = first then w.behind i ++ [second] else w.behind i
    ahead := fun i => if i = second then w.ahead i + 1 else w.ahead i }

end Waiting

section
variable {σ : Type} (types : List (Descriptor σ))

def place? (key : TypeKey) : Option Nat := types.findIdx? fun d => d.key == key

/-- The pairs of places of which the first is to come before the second, as the type in one place
has it. What it says of types that are not registered is passed over. -/
def asked (d : Descriptor σ) (i : Nat) : List (Nat × Nat) :=
  (d.before.filterMap (place? types)).map (fun j => (i, j)) ++
    (d.after.filterMap (place? types)).map (fun j => (j, i)) ++
    ((d.supertypes ++ [TypeKey.object]).filterMap (place? types)).map (fun j => (i, j))

/-- Which types wait for which, by their places. -/
def waiting : Waiting :=
  (types.zipIdx.flatMap fun entry => asked types entry.1 entry.2).foldl
    (fun w pair => w.add pair.1 pair.2) .none

end

/-! ### One after the other -/

/-- How far a listing has come. -/
structure Progress where
  /-- The places that were listed. -/
  listed : List Nat
  /-- The places that wait for no other any more. -/
  ready : List Nat
  /-- The number of places that a place still waits for. -/
  ahead : Nat → Nat

namespace Progress

/-- Before the first of some places is listed. -/
def start (w : Waiting) (places : List Nat) : Progress where
  listed := []
  ready := places.filter fun i => w.ahead i == 0
  ahead := w.ahead

/-- Lists a place that is ready. Those behind it wait for one fewer; who waits for none now is
ready. -/
def list (p : Progress) (w : Waiting) (place : Nat) : Progress :=
  let ahead := fun i => if (w.behind place).contains i then p.ahead i - 1 else p.ahead i
  { listed := p.listed ++ [place]
    ready := p.ready.erase place ++ (w.behind place).filter fun i => ahead i == 0
    ahead := ahead }

/-- Lists places one after the other, the earliest that is ready first, at most `fuel` of them. -/
def run (w : Waiting) : Nat → Progress → Progress
  | 0, p => p
  | fuel + 1, p =>
    match p.ready.min? with
    | none => p
    | some place => run w fuel (p.list w place)

end Progress

section
variable {σ : Type} (types : List (Descriptor σ))

/-- The places that get their turn, one after the other. -/
def inTurn : List Nat :=
  let w := waiting types
  (Progress.run w types.length (.start w (.range types.length))).listed

/-- All places in the order of listing: those whose turn never comes follow. -/
def places : List Nat :=
  let listed := inTurn types
  listed ++ (List.range types.length).filter fun i => !listed.contains i

/-- The keys of types in the order in which they are listed. -/
def arrange : List TypeKey := (places types).filterMap fun i => types[i]?.map (·.key)

end

end Listing

/-- The order in which the registered types are listed. -/
def TypeRegistry.sortedKeys {σ : Type} (r : TypeRegistry σ) : List TypeKey :=
  Listing.arrange r.types

end ScriptEngine
