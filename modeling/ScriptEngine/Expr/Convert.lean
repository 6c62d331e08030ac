import ScriptEngine.Expr.Node
import ScriptEngine.Types.Convert
import ScriptEngine.Types.Queries

/-! Converting nodes.

A node of the wanted type is left as it is. A constant of the universal type is
converted value by value, a list node by node, and a converted node from what it was
made of, so that conversions never stack; everything else is wrapped in an edge of the
registry. The node that results is named by the caller. -/
namespace ScriptEngine.Node
variable {σ : Type}

/-- The node itself if its type will do, else its own conversion if it has one, else the node
wrapped in an edge. -/
def settle (r : TypeRegistry σ) (target : TypeKey) (id : NodeId) (n : Node σ)
    (own : HostM σ (Option (Node σ))) : HostM σ (Outcome (Node σ)) := do
  if r.isAssignable n.type target then return .ok n
  match ← own with
  | some m => return .ok m
  | none =>
    match r.edge? n.type target with
    | some edge => return .ok (.converted id n edge)
    | none => return .error (.conversionUnavailable n.type target)

mutual
/-- The conversion that a node has of its own. -/
def convertSelf (r : TypeRegistry σ) (target : TypeKey) (id : NodeId) :
    Node σ → HostM σ (Option (Node σ))
  | .literal _ type values q => do
    if type.isObject then
      return (← r.convertAll target values).map fun vs => .literal id target vs q
    else
      return none
  | .list _ _ children q => do
    return (← convertAll r target id 0 children).map fun cs => .list id target cs q
  | .converted _ source _ => do
    return (← settle r target id source (convertSelf r target id source)).toOption
  | _ => pure none
/-- Converts all of several nodes; nothing is tried after the first that cannot be converted. -/
def convertAll (r : TypeRegistry σ) (target : TypeKey) (id : NodeId) (place : Nat) :
    List (Node σ) → HostM σ (Option (List (Node σ)))
  | [] => pure (some [])
  | n :: rest => do
    match ← settle r target (id.child place) n (convertSelf r target (id.child place) n) with
    | .error _ => return none
    | .ok m => return (← convertAll r target id (place + 1) rest).map (m :: ·)
end

/-- A node that yields the values of a node as values of a type. -/
def convertTo (r : TypeRegistry σ) (target : TypeKey) (id : NodeId) (n : Node σ) :
    HostM σ (Outcome (Node σ)) :=
  settle r target id n (convertSelf r target id n)

/-- Whether a loop over a node is meant by a name: the node claims the name, or the name is that of
a type which the node's values are of. -/
def loopMatches (r : TypeRegistry σ) (name : String) (n : Node σ) : Bool :=
  n.isLoopOf name ||
    (match r.resolve? name with
      | none => false
      | some key => r.isAssignable n.type key)

end ScriptEngine.Node
