import ScriptEngine.Types.Convert

/-! What else a registry of types is asked: changers, default values, names, deltas. -/
namespace ScriptEngine.TypeRegistry
variable {σ : Type}

/-- The changer of a type, or of its nearest supertype that has one. -/
def changer? (r : TypeRegistry σ) (key : TypeKey) : Option (Changer σ) :=
  (r.lineage key).findSome? fun k => (r.descriptor? k).bind (·.changer)

/-- The value that stands in for a value of a type. -/
def defaultValue (r : TypeRegistry σ) (key : TypeKey) : HostM σ (Option Value) :=
  match r.descriptor? key with
  | none => pure none
  | some d => d.defaultValue

/-- The first registered type that answers to a name. -/
def resolve? (r : TypeRegistry σ) (name : String) : Option TypeKey :=
  (r.types.find? fun d => d.answersTo name).map (·.key)

/-- Whether a value is of one of some types. -/
def isOneOf (r : TypeRegistry σ) (accepted : List TypeKey) (v : Value) : Bool :=
  accepted.any fun t => r.isAssignable v.type t

/-- Checks a delta against the types accepted in a mode. A delta is never converted: each of its
values must be of an accepted type already. -/
def validateDelta (r : TypeRegistry σ) (accepted : Option (List TypeKey))
    (delta : Option (List Value)) (mode : ChangeMode) : Outcome Unit :=
  match accepted with
  | none => .error (.unsupported (.modeUnsupported mode))
  | some types =>
    let values := delta.getD []
    if mode.takesDelta then
      if values.isEmpty then .error (.unsupported (.deltaMissing mode))
      else
        match values.find? fun v => !r.isOneOf types v with
        | none => .ok ()
        | some v => .error (.unsupported (.deltaType mode v.type types))
    else if values.isEmpty then .ok ()
    else .error (.unsupported (.deltaUnexpected mode))

end ScriptEngine.TypeRegistry
