import ScriptEngine.Engine.Trigger

/-! Taking scripts down.

A script that is taken down lets go of its elements. One that something else still
holds stays in use: another script, a table of the host, a node that is built on it, or
an element that keeps it. -/
namespace ScriptEngine

/-- The places where elements and nodes are held, outside of other elements and nodes. -/
structure Holders (σ : Type) where
  elements : List (Element σ)
  nodes : List (Node σ)

/-- What taking a script down comes to. -/
structure Teardown where
  /-- The number of nodes let go. -/
  nodes : Nat
  /-- The number of elements that are still held. -/
  stillShared : Nat
  deriving DecidableEq

mutual
/-- How many places in a tree hold a node, the place of the tree itself included. -/
def Node.placesOf {σ : Type} (id : NodeId) : Node σ → Nat
  | .list own _ children _ => (if own = id then 1 else 0) + placesOfAll id children
  | .converted own source _ => (if own = id then 1 else 0) + source.placesOf id
  | .property own owner _ => (if own = id then 1 else 0) + owner.placesOf id
  | .memoized own inner => (if own = id then 1 else 0) + inner.placesOf id
  | .literal own .. => if own = id then 1 else 0
  | .eventValue own _ => if own = id then 1 else 0
  | .snapshot own _ => if own = id then 1 else 0
  | .host own _ => if own = id then 1 else 0
/-- How many places in several trees hold a node. -/
def Node.placesOfAll {σ : Type} (id : NodeId) : List (Node σ) → Nat
  | [] => 0
  | n :: rest => n.placesOf id + placesOfAll id rest
end

/-- How many places in an element hold an element or a node, the place of the element itself
included. -/
def Element.placesOf {σ : Type} (id : NodeId) : Element σ → Nat
  | .expression n => n.placesOf id
  | e => (if e.id = id then 1 else 0) + Node.placesOfAll id e.kept

/-- How many places hold an element or a node. -/
def Holders.placesOf {σ : Type} (h : Holders σ) (id : NodeId) : Nat :=
  h.elements.foldr (fun e n => e.placesOf id + n) (Node.placesOfAll id h.nodes)

/-- Takes a script down, given everything else that is held. -/
def Trigger.teardown {σ : Type} (t : Trigger σ) (others : Holders σ) : Teardown :=
  let all : Holders σ := { others with elements := t.roots ++ others.elements }
  { nodes := t.size
    stillShared := t.roots.countP fun root => 1 < all.placesOf root.id }

end ScriptEngine
