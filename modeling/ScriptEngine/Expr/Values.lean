import ScriptEngine.Expr.Node

/-! The values of a node.

The values of a node are visited one by one, and the visitor may stop. Constants and
values taken down are there; a value of the event, a kept value and a node of the host
are computed in full when their first value is wanted; a list comes to each of its
nodes in turn, and conversions and properties are computed value by value. So a visit
that stops has asked the host for nothing beyond what it needed.

A kept value is kept for the state of the event that its node is bound to. Only values
of the event have states of their own; a list has one if all its nodes share it. -/
namespace ScriptEngine.Node
variable {σ : Type}

/-! ### States -/

/-- The one state that all the given ones are, or else the present. -/
def commonTime : List Time → Time
  | [] => .default
  | t :: rest => if rest.all (· == t) then t else .default

mutual
/-- The state that a node is bound to. -/
def time (b : Bindings) : Node σ → Time
  | .literal .. => .default
  | .list _ _ children _ => commonTime (times b children)
  | .converted _ source _ => source.time b
  | .property _ owner _ => owner.time b
  | .eventValue id _ => b.get id
  | .snapshot _ taken => taken.time
  | .memoized _ inner => inner.time b
  | .host .. => .default
def times (b : Bindings) : List (Node σ) → List Time
  | [] => []
  | n :: rest => n.time b :: times b rest
end

/-! ### Visiting -/

/-- Hands values to a visitor until it stops. -/
def scan {β : Type} (f : Value → β → Eval σ (ForInStep β)) :
    List Value → β → Eval σ (ForInStep β)
  | [], b => pure (.yield b)
  | v :: rest, b => do
    match ← f v b with
    | .done b => return .done b
    | .yield b => scan f rest b

/-- The visitor that takes what a function makes of each value, leaving out where it makes
nothing. -/
def through {β : Type} (get : Value → HostM σ (Option Value))
    (f : Value → β → Eval σ (ForInStep β)) (v : Value) (b : β) : Eval σ (ForInStep β) := do
  match ← Eval.host (get v) with
  | none => return .yield b
  | some v' => f v' b

/-- The visitor that gathers values, the last one first. -/
def gather (v : Value) (gathered : List Value) : Eval σ (ForInStep (List Value)) :=
  pure (.yield (v :: gathered))

/-- The values that were gathered, in order. -/
def gathered (step : ForInStep (List Value)) : List Value := step.value.reverse

/-- The property of a value, as the host computes it. -/
def readProperty (id : NodeId) (p : Property σ) (v : Value) : HostM σ (Option Value) :=
  HostM.called (.readProperty id v) (p.get v)

/-- The value of the event in the state that the node is bound to; a revoked event has none. -/
def readEvent (ctx : ContextId) (id : NodeId) (value : EventValue σ) : Eval σ (Option Value) := do
  let w ← get
  if w.isRevoked ctx then return none
  let t := w.bindings.get id
  match value.getter? t with
  | none => return none
  | some get => Eval.host (HostM.called (.readEvent id t ctx) (get ctx))

/-- The values that the host computes for a node of its own. -/
def evaluate (ctx : ContextId) (id : NodeId) (node : HostNode σ) : Eval σ (List Value) :=
  Eval.host (HostM.called (.evaluate id ctx) (node.compute ctx))

mutual
/-- Hands the values of a node to a visitor, in order, until it stops. -/
def visit (ctx : ContextId) {β : Type} (f : Value → β → Eval σ (ForInStep β)) :
    Node σ → β → Eval σ (ForInStep β)
  | .literal _ _ values _, b => scan f values b
  | .list _ _ children _, b => visitAll ctx f children b
  | .converted _ source edge, b => source.visit ctx (through edge.apply f) b
  | .property id owner p, b => owner.visit ctx (through (readProperty id p) f) b
  | .eventValue id value, b => do scan f (← readEvent ctx id value).toList b
  | .snapshot _ taken, b => scan f taken.values b
  | .memoized _ inner, b => do
    let t := inner.time (← get).bindings
    let values ← Eval.memoized ctx inner.id t do return gathered (← inner.visit ctx gather [])
    scan f values b
  | .host id node, b => do scan f (← evaluate ctx id node) b
/-- Hands the values of several nodes to a visitor, in order, until it stops. -/
def visitAll (ctx : ContextId) {β : Type} (f : Value → β → Eval σ (ForInStep β)) :
    List (Node σ) → β → Eval σ (ForInStep β)
  | [], b => pure (.yield b)
  | n :: rest, b => do
    match ← n.visit ctx f b with
    | .done b => return .done b
    | .yield b => visitAll ctx f rest b
end

/-! ### Reading -/

def array (ctx : ContextId) (n : Node σ) : Eval σ (List Value) := do
  return gathered (← n.visit ctx gather [])

/-- The values kept for a node in a running event, computed if there are none. -/
def keptArray (ctx : ContextId) (n : Node σ) : Eval σ (List Value) := do
  let t := n.time (← get).bindings
  Eval.memoized ctx n.id t (n.array ctx)

/-- The first value of a node, with nothing computed beyond it. -/
def first (ctx : ContextId) (n : Node σ) : Eval σ (Option Value) := do
  return (← n.visit ctx (fun v _ => pure (.done (some v))) none).value

/-- One value of a node, if it yields any; a list is computed in full. -/
def single (ctx : ContextId) (n : Node σ) : Eval σ (Option Value) :=
  match n with
  | .list .. => do return (← n.array ctx).head?
  | _ => n.first ctx

/-- What is computed of a node before its first value is wanted. -/
def prepare (ctx : ContextId) : Node σ → Eval σ Unit
  | .literal .. => pure ()
  | .list .. => pure ()
  | .converted _ source _ => source.prepare ctx
  | .property _ owner _ => owner.prepare ctx
  | .eventValue id value => do let _ ← readEvent ctx id value
  | .snapshot .. => pure ()
  | .memoized _ inner => do let _ ← inner.keptArray ctx
  | .host id node => do let _ ← evaluate ctx id node

/-- The visitor that gathers a number of values and stops with the last of them. -/
def gatherUpTo (count : Nat) (v : Value) (gathered : List Value) :
    Eval σ (ForInStep (List Value)) :=
  if gathered.length + 1 < count then pure (.yield (v :: gathered))
  else pure (.done (v :: gathered))

/-- The first values of a node, at most so many, with nothing computed beyond them. -/
def take (ctx : ContextId) (count : Nat) (n : Node σ) : Eval σ (List Value) := do
  if count = 0 then
    n.prepare ctx
    return []
  else
    return gathered (← n.visit ctx (gatherUpTo count) [])

end ScriptEngine.Node
