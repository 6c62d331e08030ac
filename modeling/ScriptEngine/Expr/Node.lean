import ScriptEngine.Types.Edge
import ScriptEngine.World

/-! The nodes of compiled expressions.

A node yields values of a declared type when it is evaluated in a running event. The
engine has nodes for constants, lists, converted values, properties of values, values
of the event, values taken down earlier and values kept for the rest of the event; a
host may add nodes of its own. -/
namespace ScriptEngine

/-! ### Quantifiers -/

/-- How several values are read under a condition. -/
inductive Quantifier where
  /-- Every value must pass. -/
  | and
  /-- One value that passes is enough. -/
  | or
  deriving DecidableEq

namespace Quantifier

/-- The word between the last two of several values. -/
def word : Quantifier → String
  | .and => "and"
  | .or => "or"

def ofWord? (s : String) : Option Quantifier := [Quantifier.and, .or].find? fun q => q.word == s

/-- Parts with commas between them, and the word before the last. -/
def join (q : Quantifier) (parts : List String) : String :=
  match parts with
  | [] => ""
  | [part] => part
  | _ =>
    String.intercalate ", " parts.dropLast ++ " " ++ q.word ++ " " ++ parts.getLast?.getD ""

end Quantifier

/-! ### What nodes are made of -/

/-- A property of the values of another node. -/
structure Property (σ : Type) where
  name : String
  type : TypeKey
  get : Value → HostM σ (Option Value)

/-- A value of the running event, for each state of the event that has it. -/
structure EventValue (σ : Type) where
  type : TypeKey
  name : String
  getter? : Time → Option (ContextId → HostM σ (Option Value))

/-- Values taken down at one moment, with the facts about the node they are from. -/
structure Snapshot where
  type : TypeKey
  values : List Value
  single : Bool
  quantifier : Quantifier
  time : Time
  label : String

/-- A node that the host computes. -/
structure HostNode (σ : Type) where
  type : TypeKey
  single : Bool
  quantifier : Quantifier
  compute : ContextId → HostM σ (List Value)
  label : String
  isDefault : Bool
  /-- The names under which a loop over the node is known. -/
  loopNames : List String
  /-- The types accepted in each mode, if they are not those of the type's changer. -/
  accepts : Option (ChangeMode → Option (List TypeKey))

/-- A node of a compiled expression. -/
inductive Node (σ : Type) where
  | literal (id : NodeId) (type : TypeKey) (values : List Value) (quantifier : Quantifier)
  | list (id : NodeId) (type : TypeKey) (children : List (Node σ)) (quantifier : Quantifier)
  | converted (id : NodeId) (source : Node σ) (edge : Edge σ)
  | property (id : NodeId) (owner : Node σ) (property : Property σ)
  | eventValue (id : NodeId) (value : EventValue σ)
  | snapshot (id : NodeId) (taken : Snapshot)
  | memoized (id : NodeId) (inner : Node σ)
  | host (id : NodeId) (node : HostNode σ)

/-- What holds of every node that is made of nodes of which it holds, holds of all nodes. -/
@[elab_as_elim, induction_eliminator]
theorem Node.induction {σ : Type} {motive : Node σ → Prop}
    (literal : ∀ id type values q, motive (.literal id type values q))
    (list : ∀ id type children q, (∀ c ∈ children, motive c) → motive (.list id type children q))
    (converted : ∀ id source edge, motive source → motive (.converted id source edge))
    (property : ∀ id owner p, motive owner → motive (.property id owner p))
    (eventValue : ∀ id value, motive (.eventValue id value))
    (snapshot : ∀ id taken, motive (.snapshot id taken))
    (memoized : ∀ id inner, motive inner → motive (.memoized id inner))
    (host : ∀ id node, motive (.host id node)) (n : Node σ) : motive n :=
  @Node.rec σ motive (fun children => ∀ c ∈ children, motive c)
    literal (fun id type children q ih => list id type children q ih)
    (fun id source edge ih => converted id source edge ih)
    (fun id owner p ih => property id owner p ih)
    eventValue snapshot (fun id inner ih => memoized id inner ih) host
    (fun _ h => nomatch h)
    (fun _ _ head tail c h => by
      cases h with
      | head => exact head
      | tail _ h => exact tail c h)
    n

namespace Property
variable {σ : Type}

/-- A property computed from payloads of one shape, as payloads of another. -/
def typed (name : String) (type : TypeKey) (input output : Shape)
    (get : input.Carrier → HostM σ (Option output.Carrier)) : Property σ where
  name := name
  type := type
  get v :=
    match v.as? input with
    | none => pure none
    | some x => do return (← get x).map fun y => ⟨type, .of output y⟩

end Property

namespace EventValue
variable {σ : Type}

/-- A value that only the present state of the event has. -/
def ofPresent (type : TypeKey) (name : String) (get : ContextId → HostM σ (Option Value)) :
    EventValue σ where
  type := type
  name := name
  getter? t := if t = .default then some get else none

/-- The same with a value for one more state of the event. -/
def withState (e : EventValue σ) (time : Time) (get : ContextId → HostM σ (Option Value)) :
    EventValue σ where
  type := e.type
  name := e.name
  getter? t := if t = time then some get else e.getter? t

/-- A getter whose results are payloads of a shape. -/
def typedGetter (type : TypeKey) (shape : Shape)
    (get : ContextId → HostM σ (Option shape.Carrier)) : ContextId → HostM σ (Option Value) :=
  fun ctx => do return (← get ctx).map fun x => ⟨type, .of shape x⟩

/-- Whether the event has the value in a state. -/
def hasState (e : EventValue σ) (t : Time) : Bool := (e.getter? t).isSome

end EventValue

/-! ### Facts that never change -/

namespace Node
variable {σ : Type}

/-- The name by which a node is told apart. -/
def id : Node σ → NodeId
  | .literal id .. => id
  | .list id .. => id
  | .converted id .. => id
  | .property id .. => id
  | .eventValue id .. => id
  | .snapshot id .. => id
  | .memoized id .. => id
  | .host id .. => id

def type : Node σ → TypeKey
  | .literal _ type .. => type
  | .list _ type .. => type
  | .converted _ _ edge => edge.target
  | .property _ _ p => p.type
  | .eventValue _ value => value.type
  | .snapshot _ taken => taken.type
  | .memoized _ inner => inner.type
  | .host _ node => node.type

/-- Whether a node yields one value at most, as it is declared. -/
def isSingle : Node σ → Bool
  | .literal _ _ values _ => values.length == 1
  | .list _ _ [child] _ => child.isSingle
  | .list .. => false
  | .converted _ source _ => source.isSingle
  | .property _ owner _ => owner.isSingle
  | .eventValue .. => true
  | .snapshot _ taken => taken.single
  | .memoized _ inner => inner.isSingle
  | .host _ node => node.single

/-- How several values of a node are read under a condition. -/
def quantifier : Node σ → Quantifier
  | .literal _ _ _ quantifier => quantifier
  | .list _ _ _ quantifier => quantifier
  | .converted _ source _ => source.quantifier
  | .property _ owner _ => owner.quantifier
  | .eventValue .. => .and
  | .snapshot _ taken => taken.quantifier
  | .memoized _ inner => inner.quantifier
  | .host _ node => node.quantifier

/-- How a condition reads a node: one that is single passes only by its value. -/
def reading (n : Node σ) : Quantifier := if n.isSingle then .or else n.quantifier

/-- The nodes that a node is built on. -/
def children : Node σ → List (Node σ)
  | .list _ _ children _ => children
  | .converted _ source _ => [source]
  | .property _ owner _ => [owner]
  | .memoized _ inner => [inner]
  | _ => []

mutual
/-- The number of nodes in a tree; a shared one counts on every path. -/
def size : Node σ → Nat
  | .list _ _ children _ => 1 + sizeAll children
  | .converted _ source _ => 1 + source.size
  | .property _ owner _ => 1 + owner.size
  | .memoized _ inner => 1 + inner.size
  | _ => 1
def sizeAll : List (Node σ) → Nat
  | [] => 0
  | n :: rest => n.size + sizeAll rest
end

/-- The node that a converted node was made from. -/
def source? : Node σ → Option (Node σ)
  | .converted _ source _ => some source
  | .memoized _ inner => inner.source?
  | _ => none

/-- The node that conversions started from; the node itself if it is not converted. -/
def origin : Node σ → Node σ
  | .converted _ source _ => source.origin
  | .memoized id inner => if inner.source?.isSome then inner.origin else .memoized id inner
  | n => n

/-- Whether a node stands in for an argument that was left out. -/
def isDefault : Node σ → Bool
  | .converted _ source _ => source.isDefault
  | .eventValue .. => true
  | .memoized _ inner => inner.isDefault
  | .host _ node => node.isDefault
  | _ => false

mutual
/-- Whether a loop over the node is known under a name. -/
def isLoopOf (name : String) : Node σ → Bool
  | .list _ _ children _ => anyIsLoopOf name children
  | .converted _ source _ => source.isLoopOf name
  | .memoized _ inner => inner.isLoopOf name
  | .host _ node => node.loopNames.contains name
  | _ => false
def anyIsLoopOf (name : String) : List (Node σ) → Bool
  | [] => false
  | n :: rest => n.isLoopOf name || anyIsLoopOf name rest
end

/-! ### Building nodes -/

/-- The type that all nodes share, or the universal type. -/
def commonType : List (Node σ) → TypeKey
  | [] => .object
  | n :: rest => if rest.all fun m => m.type == n.type then n.type else .object

def ofChildren (id : NodeId) (children : List (Node σ)) (quantifier : Quantifier) : Node σ :=
  .list id (commonType children) children quantifier

end Node

end ScriptEngine
