import ScriptEngine.Host
import ScriptEngine.Table

/-! What evaluation reads and leaves behind.

A `World` is the host's state, the journal of what happened so far, the cached values
of each running event that has a cache, and the state of the event that each node is
bound to. `Eval` is a run in a world; `Eval.host` is the only way from there to the
host. -/
namespace ScriptEngine

/-! ### Bindings -/

/-- Which state of the event nodes are bound to; a node that was never bound is bound to the
present. -/
structure Bindings where
  slots : Table NodeId Time

namespace Bindings

/-- No node has been bound yet. -/
def initial : Bindings := ⟨.empty⟩

def get (b : Bindings) (id : NodeId) : Time := (b.slots.get? id).getD .default

def set (b : Bindings) (id : NodeId) (t : Time) : Bindings := ⟨b.slots.insert id t⟩

@[simp] theorem get_initial (id : NodeId) : initial.get id = .default := rfl

theorem get_set (b : Bindings) (id id' : NodeId) (t : Time) :
    (b.set id t).get id' = if id = id' then t else b.get id' := by
  by_cases h : id = id' <;> simp [set, get, Table.get?_insert, h]

end Bindings

/-! ### Worlds -/

/-- Cached values of nodes, each under the node and the state it was bound to. -/
abbrev Memo : Type := Table (NodeId × Time) (List Value)

/-- What evaluation reads and leaves behind. -/
structure World (σ : Type) where
  host : σ
  /-- What happened so far, oldest first. -/
  journal : List Entry
  /-- The caches of the running events that have one. -/
  memos : Table ContextId Memo
  bindings : Bindings

namespace World
variable {σ : Type}

/-- The world before anything happened. -/
def start (host : σ) : World σ := ⟨host, [], .empty, .initial⟩

def isRevoked (w : World σ) (ctx : ContextId) : Bool := w.journal.any (·.revokes ctx)

/-- The cache of an event, if it has one. -/
def memo? (w : World σ) (ctx : ContextId) : Option Memo := w.memos.get? ctx

def hasMemo (w : World σ) (ctx : ContextId) : Bool := (w.memo? ctx).isSome

def memoSize (w : World σ) (ctx : ContextId) : Nat :=
  match w.memo? ctx with
  | none => 0
  | some memo => memo.size

/-- The world in which an event has an empty cache. -/
def withMemo (w : World σ) (ctx : ContextId) : World σ :=
  { w with memos := w.memos.insert ctx .empty }

/-- The world in which values are cached for a node; an event without a cache stays without one. -/
def remember (w : World σ) (ctx : ContextId) (node : NodeId) (time : Time) (values : List Value) :
    World σ :=
  match w.memo? ctx with
  | none => w
  | some memo => { w with memos := w.memos.insert ctx (memo.insert (node, time) values) }

/-- The world in which nothing is cached for a node, whatever it is bound to. -/
def forget (w : World σ) (ctx : ContextId) (node : NodeId) : World σ :=
  match w.memo? ctx with
  | none => w
  | some memo => { w with memos := w.memos.insert ctx (memo.filterKeys fun k => k.1 != node) }

/-- The facts about an event that are the same on every run. -/
def inspectContext (w : World σ) (ctx : ContextId) (made : String) : String :=
  "ExecutionContext \x7b " ++ made ++ ", revoked: " ++ toString (w.isRevoked ctx) ++
    ", memo: " ++ toString (w.hasMemo ctx) ++ " \x7d"

end World

/-! ### Runs in a world -/

/-- A run in a world. -/
abbrev Eval (σ : Type) : Type → Type := StateM (World σ)

namespace Eval
variable {σ α : Type}

/-- Runs in the host's state, and adds to the journal. -/
def host (m : HostM σ α) : Eval σ α := fun w =>
  let reply := m.run w.host
  (reply.value, { w with host := reply.state, journal := w.journal ++ reply.journal })

def note (e : Entry) : Eval σ Unit := host (HostM.note e)

def isRevoked (ctx : ContextId) : Eval σ Bool := do return (← get).isRevoked ctx

/-- The text of a value by now. -/
def render [HostCells σ] (v : Value) : Eval σ String := do return v.render (← get).host

/-- The values cached for a node under a state of the event, computed if there are none. What is
computed is cached unless the event was revoked meanwhile. -/
def memoized (ctx : ContextId) (node : NodeId) (time : Time) (compute : Eval σ (List Value)) :
    Eval σ (List Value) := do
  match (← get).memo? ctx with
  | none => compute
  | some memo =>
    match memo.get? (node, time) with
    | some values =>
      note (.recall ctx node time true)
      return values
    | none =>
      note (.recall ctx node time false)
      let values ← compute
      if ← isRevoked ctx then return values
      modify (·.remember ctx node time values)
      return values

end Eval

end ScriptEngine
