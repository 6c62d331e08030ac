import ScriptEngine.Time
import ScriptEngine.Types.ChangeMode
import ScriptEngine.Value

/-! Calling the host.

The engine runs functions that the host registered. Such a function may read and
change the host's own state and may revoke a running event; it can do nothing else.
`HostM` is what it runs in: a function of the host's state that replies with a value,
the state afterwards, and the journal of what happened meanwhile, in order. The engine
puts its calls and what came of them into the same journal. Nothing can be struck from
a journal, so an event once revoked stays revoked.

Two nodes are the same node exactly when they have the same `NodeId`: what a node is
bound to and what is cached for it hang on that name. Names are paths, so whoever is
given one name has a fresh one for each part of what it builds. -/
namespace ScriptEngine

/-! ### Names of events and nodes -/

/-- One running of an event. -/
structure ContextId where
  index : Nat
  deriving DecidableEq

/-- One node, or one element built from nodes. -/
structure NodeId where
  path : List Nat
  deriving DecidableEq

/-- The name of a part, given to it by what it is part of. -/
def NodeId.child (id : NodeId) (part : Nat) : NodeId := ⟨part :: id.path⟩

/-! ### The journal -/

/-- A call of a function that the host supplied, with what it was called on. -/
inductive HostCall where
  | convert (source target : TypeKey) (value : Value)
  | compare (left right : TypeKey) (a b : Value)
  | change (mode : ChangeMode) (values : List Value) (delta : Option (List Value))
  | supplyDefault (type : TypeKey)
  | readEvent (node : NodeId) (time : Time) (ctx : ContextId)
  | readProperty (node : NodeId) (owner : Value)
  | evaluate (node : NodeId) (ctx : ContextId)
  /-- A condition of a script tests an event. -/
  | check (element : NodeId) (ctx : ContextId)
  /-- An effect of a script is carried out. -/
  | execute (element : NodeId) (ctx : ContextId)

/-- One thing that happened. -/
inductive Entry where
  /-- The host was called. -/
  | call (call : HostCall)
  /-- The host refused the change that it was called for. -/
  | refusal
  /-- An event was revoked. -/
  | revoke (ctx : ContextId)
  /-- A value was put to a test. -/
  | test (value : Value)
  /-- The cache of an event was asked for the values of a node, and had them or had not. -/
  | recall (ctx : ContextId) (node : NodeId) (time : Time) (found : Bool)

/-- Whether an entry revokes an event. -/
def Entry.revokes (ctx : ContextId) : Entry → Bool
  | .revoke c => c == ctx
  | _ => false

/-! ### Running in the host's state -/

/-- What a run in the host's state comes to. -/
structure Reply (σ α : Type) where
  value : α
  state : σ
  journal : List Entry

/-- A run in the host's state. -/
def HostM (σ α : Type) : Type := σ → Reply σ α

namespace HostM
variable {σ α β : Type}

def run (m : HostM σ α) (s : σ) : Reply σ α := m s

instance : Monad (HostM σ) where
  pure a := fun s => ⟨a, s, []⟩
  bind m f := fun s =>
    let first := m.run s
    let second := (f first.value).run first.state
    ⟨second.value, second.state, first.journal ++ second.journal⟩

instance : MonadStateOf σ (HostM σ) where
  get := fun s => ⟨s, s, []⟩
  set s := fun _ => ⟨(), s, []⟩
  modifyGet f := fun s => ⟨(f s).1, (f s).2, []⟩

def note (e : Entry) : HostM σ Unit := fun s => ⟨(), s, [e]⟩

def revoke (ctx : ContextId) : HostM σ Unit := note (.revoke ctx)

/-- Runs a function of the host, with the call in the journal before what it does. -/
def called (call : HostCall) (m : HostM σ α) : HostM σ α := do
  note (.call call)
  m

@[simp] theorem run_pure (a : α) (s : σ) : (pure a : HostM σ α).run s = ⟨a, s, []⟩ := rfl

@[simp] theorem run_note (e : Entry) (s : σ) : (note e : HostM σ Unit).run s = ⟨(), s, [e]⟩ := rfl

theorem run_bind (m : HostM σ α) (f : α → HostM σ β) (s : σ) :
    (m >>= f).run s =
      let first := m.run s
      let second := (f first.value).run first.state
      ⟨second.value, second.state, first.journal ++ second.journal⟩ := rfl

theorem run_called (call : HostCall) (m : HostM σ α) (s : σ) :
    (called call m).run s =
      ⟨(m.run s).value, (m.run s).state, .call call :: (m.run s).journal⟩ := rfl

@[ext] theorem ext {m n : HostM σ α} (h : ∀ s, m.run s = n.run s) : m = n := funext h

instance : LawfulMonad (HostM σ) := LawfulMonad.mk' (HostM σ)
  (fun m => ext fun s => by
    show Reply.mk (m.run s).value (m.run s).state ((m.run s).journal ++ []) = m.run s
    rw [List.append_nil])
  (fun _ _ => rfl)
  (fun m f g => ext fun s => by simp [run_bind])

end HostM

end ScriptEngine
