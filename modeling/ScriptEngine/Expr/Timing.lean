import ScriptEngine.Error
import ScriptEngine.Expr.Snapshot

/-! Binding nodes to a state of the event.

Only values of the event have states of their own. A list is bound if one of its
nodes can be; conversions, properties and kept values are bound as what they are built
on. Every other node knows the present only. A node that does not have the state
refuses, and the refusal names the node in words. -/
namespace ScriptEngine.Node
variable {σ : Type}

mutual
/-- Binds a node to a state; the answer says whether the node has it. -/
def rebind (t : Time) : Node σ → StateM Bindings Bool
  | .literal .. => pure (t == .default)
  | .list _ _ children _ => do
    let some ← rebindAny t children
    return some || t == .default
  | .converted _ source _ => source.rebind t
  | .property _ owner _ => owner.rebind t
  | .eventValue id value =>
    if value.hasState t then do
      modify (·.set id t)
      return true
    else
      pure false
  | .snapshot _ taken => pure (t == taken.time)
  | .memoized _ inner => inner.rebind t
  | .host .. => pure (t == .default)
/-- Binds several nodes to a state; the answer says whether one of them has it. -/
def rebindAny (t : Time) : List (Node σ) → StateM Bindings Bool
  | [] => pure false
  | n :: rest => do
    let here ← n.rebind t
    let there ← rebindAny t rest
    return here || there
end

/-- The node that a refused binding is blamed on. -/
def boundNode : Node σ → Node σ
  | .converted _ source _ => source.boundNode
  | .property _ owner _ => owner.boundNode
  | .memoized _ inner => inner.boundNode
  | n => n

variable [HostCells σ]

/-- The refusal of a state that a node does not have. -/
def rejectTime (t : Time) (n : Node σ) : Eval σ (Outcome Unit) := do
  return .error (.timeRejected (← n.label) t)

/-- Binds a node to a state of the event. -/
def setTime (t : Time) (n : Node σ) : Eval σ (Outcome Unit) := do
  let w ← get
  let (bound, bindings) := (n.rebind t).run w.bindings
  set { w with bindings := bindings }
  if bound then return .ok ()
  n.boundNode.rejectTime t

/-- Binds a node to a state of the event for an element that may come after a delay: after a certain
delay the event is over, and only the present is left. -/
def bindTime (t : Time) (delay : Kleenean) (n : Node σ) : Eval σ (Outcome Unit) :=
  if t != .default && delay.isTrue then n.rejectTime t else n.setTime t

end ScriptEngine.Node
