import ScriptEngine.Expr.Change
import ScriptEngine.Expr.Check
import ScriptEngine.Types.Compare

/-! The elements that scripts are made of.

A condition tests the running event, an effect does something, an event matcher says
whether an event starts a script; the host supplies what they do. An expression is a
node of the engine. -/
namespace ScriptEngine

/-- A test of the running event. -/
structure Condition (σ : Type) where
  check : ContextId → TypeRegistry σ → Eval σ Bool
  negated : Bool
  children : List (Node σ)
  describe : Option ContextId → Bool → Eval σ String

/-- Something that is done. -/
structure Effect (σ : Type) where
  execute : ContextId → TypeRegistry σ → Eval σ (Outcome Unit)
  children : List (Node σ)
  describe : Option ContextId → Bool → Eval σ String

/-- What says whether an event starts a script. -/
structure EventMatcher (σ : Type) where
  accepts : ContextId → Eval σ Bool
  /-- The nodes that the matcher keeps for its own use. -/
  kept : List (Node σ)
  describe : Option ContextId → Bool → Eval σ String

/-- An element of a script. -/
inductive Element (σ : Type) where
  | condition (id : NodeId) (condition : Condition σ)
  | effect (id : NodeId) (effect : Effect σ)
  | expression (node : Node σ)
  | event (id : NodeId) (matcher : EventMatcher σ)

namespace Element
variable {σ : Type}

/-- The name by which an element is told apart; an expression is its node. -/
def id : Element σ → NodeId
  | .condition id _ => id
  | .effect id _ => id
  | .expression n => n.id
  | .event id _ => id

def kind : Element σ → ElementKind
  | .condition .. => .condition
  | .effect .. => .effect
  | .expression _ => .expression
  | .event .. => .event

def node? : Element σ → Option (Node σ)
  | .expression n => some n
  | _ => none

/-- The expressions that an element shows to others. -/
def children : Element σ → List (Node σ)
  | .condition _ c => c.children
  | .effect _ e => e.children
  | .expression n => [n]
  | .event .. => []

/-- The nodes that an element keeps in use. -/
def kept : Element σ → List (Node σ)
  | .event _ m => m.kept
  | e => e.children

/-- The number of nodes in an element; one that is not an expression counts as a node itself. -/
def size : Element σ → Nat
  | .expression n => n.size
  | e => 1 + Node.sizeAll e.children

def describe [HostCells σ] (ctx : Option ContextId) (debug : Bool) : Element σ → Eval σ String
  | .condition _ c => c.describe ctx debug
  | .effect _ e => e.describe ctx debug
  | .expression n => n.describe ctx debug
  | .event _ m => m.describe ctx debug

end Element

end ScriptEngine
