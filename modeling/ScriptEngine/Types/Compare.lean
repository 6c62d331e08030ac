import ScriptEngine.Types.Convert

/-! Comparing values.

The comparator of two types is the nearest one among their supertypes, the left type's
counting first. Where there is none, the reverse one is asked; then the right value is
converted to the left one's type, and last the left value to the right one's. -/
namespace ScriptEngine.TypeRegistry
variable {σ : Type}

/-- The nearest comparator of two types and their supertypes. -/
def comparatorFor? (r : TypeRegistry σ) (left right : TypeKey) : Option (Comparator σ) :=
  (r.lineage left ++ [TypeKey.object]).findSome? fun x =>
    (r.lineage right ++ [TypeKey.object]).findSome? fun y => r.comparator? x y

/-- Compares after the left value was converted to the right one's type. -/
def compareAsRight (r : TypeRegistry σ) (a b : Value) : HostM σ Relation := do
  match ← r.convertBy a b.type with
  | none => return .unknown
  | some a' =>
    match r.comparatorFor? b.type b.type with
    | none => return .unknown
    | some c => c.compare a' b

/-- Compares after the right value was converted to the left one's type, or else the other way. -/
def compareConverted (r : TypeRegistry σ) (a b : Value) : HostM σ Relation := do
  match ← r.convertBy b a.type with
  | none => r.compareAsRight a b
  | some b' =>
    match r.comparatorFor? a.type a.type with
    | none => r.compareAsRight a b
    | some c => c.compare a b'

/-- How two values relate; unknown where nothing compares them. -/
def compare (r : TypeRegistry σ) (a b : Value) : HostM σ Relation :=
  match r.comparatorFor? a.type b.type with
  | some c => c.compare a b
  | none =>
    match r.comparatorFor? b.type a.type with
    | some c => do return (← c.compare b a).inverse
    | none => r.compareConverted a b

end ScriptEngine.TypeRegistry
