import ScriptEngine.Expr.Values

/-! Nodes in words, and their values taken down.

A node is described as its author wrote it. For debugging, the description also shows
conversions, the values that were taken down, and, given a running event, the values
that event has now. What was taken down at one moment stays as it is, description
included, whatever becomes of the event. -/
namespace ScriptEngine.Node
variable {σ : Type} [HostCells σ]

def joinValues (host : σ) (q : Quantifier) (values : List Value) : String :=
  q.join (values.map (·.render host))

/-- The name of a value of the event, with the state it is bound to. -/
def timedName (t : Time) (name : String) : String :=
  match t with
  | .past => "past " ++ name
  | .default => name
  | .future => "future " ++ name

def describeEventValue (ctx : Option ContextId) (debug : Bool) (id : NodeId)
    (value : EventValue σ) : Eval σ String := do
  let label := timedName ((← get).bindings.get id) value.name
  match ctx, debug with
  | some ctx, true =>
    match ← readEvent ctx id value with
    | none => return label ++ " (<none>)"
    | some v => return label ++ " (" ++ (← Eval.render v) ++ ")"
  | _, _ => return label

mutual
def describe (ctx : Option ContextId) (debug : Bool) : Node σ → Eval σ String
  | .literal _ _ values q => do return joinValues (← get).host q values
  | .list _ _ children q => do return q.join (← describeAll ctx debug children)
  | .converted _ source edge => do
    let inner ← source.describe ctx debug
    return if debug then "(" ++ inner ++ " as " ++ edge.target.name ++ ")" else inner
  | .property _ owner p => do return p.name ++ " of " ++ (← owner.describe ctx debug)
  | .eventValue id value => describeEventValue ctx debug id value
  | .snapshot _ taken => do
    if debug then
      return taken.label ++ " [" ++ joinValues (← get).host taken.quantifier taken.values ++ "]"
    else
      return taken.label
  | .memoized _ inner => inner.describe ctx debug
  | .host _ node => pure node.label
/-- Several nodes in words, each on its own. -/
def describeAll (ctx : Option ContextId) (debug : Bool) : List (Node σ) → Eval σ (List String)
  | [] => pure []
  | n :: rest => do
    let here ← n.describe ctx debug
    return here :: (← describeAll ctx debug rest)
end

/-- A node as its author wrote it. -/
def label (n : Node σ) : Eval σ String := n.describe none false

/-- The values that a node has now, with the facts about the node. -/
def takeDown (ctx : ContextId) (id : NodeId) (n : Node σ) : Eval σ (Node σ) := do
  let values ← n.array ctx
  let time := n.time (← get).bindings
  let label ← n.label
  return .snapshot id ⟨n.type, values, n.isSingle, n.quantifier, time, label⟩

end ScriptEngine.Node
