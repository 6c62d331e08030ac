import ScriptEngine.Expr.Snapshot
import ScriptEngine.Types.Queries

/-! Changing the values of a node.

A change goes to the changer of the node's type, after the mode and the delta have
been checked against what the changer accepts. A list accepts what all its nodes
accept and passes the change to each of them; conversions pass it to what they convert,
and a kept value drops what was kept. A revoked event is not changed. -/
namespace ScriptEngine.Node
variable {σ : Type}

/-! ### What is accepted -/

/-- The types that the changer of a type accepts. -/
def typeAccepts (r : TypeRegistry σ) (mode : ChangeMode) (type : TypeKey) : Option (List TypeKey) :=
  (r.changer? type).bind fun c => c.accepts mode

/-- The types that stand in all lists, in the order of the first; nothing if there is no such
type. -/
def commonTypes : List (List TypeKey) → Option (List TypeKey)
  | [] => none
  | first :: rest =>
    let common := rest.foldl (fun types mine => types.filter mine.contains) first
    if common.isEmpty then none else some common

mutual
/-- The types that a delta may have in a mode, if the node supports the mode. -/
def accepts (r : TypeRegistry σ) (mode : ChangeMode) : Node σ → Option (List TypeKey)
  | .list _ _ children _ => (acceptsAll r mode children).bind commonTypes
  | .converted _ source _ => source.accepts r mode
  | .snapshot .. => none
  | .memoized _ inner => inner.accepts r mode
  | .literal _ type .. => typeAccepts r mode type
  | .property _ _ p => typeAccepts r mode p.type
  | .eventValue _ value => typeAccepts r mode value.type
  | .host _ node =>
    match node.accepts with
    | some own => own mode
    | none => typeAccepts r mode node.type
/-- What each of several nodes accepts, if all support the mode. -/
def acceptsAll (r : TypeRegistry σ) (mode : ChangeMode) :
    List (Node σ) → Option (List (List TypeKey))
  | [] => some []
  | n :: rest =>
    match n.accepts r mode with
    | none => none
    | some types => (acceptsAll r mode rest).map (types :: ·)
end

/-! ### Changing -/

variable [HostCells σ]

/-- Has the changer of a node's type change the node's values. -/
def changeHere (r : TypeRegistry σ) (ctx : ContextId) (delta : Option (List Value))
    (mode : ChangeMode) (n : Node σ) : Eval σ (Outcome Unit) := do
  match r.validateDelta (n.accepts r mode) delta mode with
  | .error e => return .error e
  | .ok _ =>
    match r.changer? n.type with
    | none => return .error (.unsupported (.unchangeable (← n.label)))
    | some changer =>
      if ← Eval.isRevoked ctx then return .ok ()
      let values ← n.array ctx
      Eval.host (changer.apply values delta mode)

mutual
def change (r : TypeRegistry σ) (ctx : ContextId) (delta : Option (List Value))
    (mode : ChangeMode) : Node σ → Eval σ (Outcome Unit)
  | .list id type children q => do
    match r.validateDelta ((Node.list id type children q).accepts r mode) delta mode with
    | .error e => return .error e
    | .ok _ => changeAll r ctx delta mode children
  | .converted _ source _ => source.change r ctx delta mode
  | .memoized _ inner => do
    match ← inner.change r ctx delta mode with
    | .error e => return .error e
    | .ok _ =>
      modify (·.forget ctx inner.id)
      return .ok ()
  | n => n.changeHere r ctx delta mode
/-- Changes several nodes, up to the first that fails. -/
def changeAll (r : TypeRegistry σ) (ctx : ContextId) (delta : Option (List Value))
    (mode : ChangeMode) : List (Node σ) → Eval σ (Outcome Unit)
  | [] => pure (.ok ())
  | n :: rest => do
    match ← n.change r ctx delta mode with
    | .error e => return .error e
    | .ok _ => changeAll r ctx delta mode rest
end

end ScriptEngine.Node
