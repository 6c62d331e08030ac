import ScriptEngine.Host

/-! Outcomes of comparing two values, and the comparators that tell them. -/
namespace ScriptEngine

/-- How one value relates to another. -/
inductive Relation where
  | equal
  | notEqual
  | smaller
  | greater
  | unknown
  deriving DecidableEq

namespace Relation

def all : List Relation := [.equal, .notEqual, .smaller, .greater, .unknown]

/-- The relation that an ordering says. -/
def ofOrdering : Ordering → Relation
  | .lt => .smaller
  | .eq => .equal
  | .gt => .greater

/-- The relation that an ordering says where there is one. -/
def ofPartial : Option Ordering → Relation
  | none => .unknown
  | some o => ofOrdering o

/-- The relation that a test of equality says. -/
def ofEquality (same : Bool) : Relation := if same then .equal else .notEqual

/-- The relation with its two sides exchanged. -/
def inverse : Relation → Relation
  | .smaller => .greater
  | .greater => .smaller
  | r => r

def isEqual (r : Relation) : Bool := r == .equal

/-- The two values cannot be compared. -/
def isUnknown (r : Relation) : Bool := r == .unknown

/-- Whether a wanted relation holds; values in an order are also not equal. -/
def satisfies (r wanted : Relation) : Bool :=
  match wanted with
  | .notEqual => r == .notEqual || r == .smaller || r == .greater
  | _ => r == wanted

def word : Relation → String
  | .equal => "equal to"
  | .notEqual => "not equal to"
  | .smaller => "smaller than"
  | .greater => "greater than"
  | .unknown => "not comparable to"

def code : Relation → String
  | .equal => "equal"
  | .notEqual => "not_equal"
  | .smaller => "smaller"
  | .greater => "greater"
  | .unknown => "unknown"

def ofCode? (s : String) : Option Relation := all.find? fun r => r.code == s

@[simp] theorem inverse_inverse (r : Relation) : r.inverse.inverse = r := by cases r <;> rfl

theorem ofCode?_code (r : Relation) : ofCode? r.code = some r := by cases r <;> decide

end Relation

/-! ### Comparators -/

/-- A function that relates payloads of two shapes. -/
structure Comparator (σ : Type) where
  left : TypeKey
  right : TypeKey
  leftShape : Shape
  rightShape : Shape
  relate : leftShape.Carrier → rightShape.Carrier → HostM σ Relation

namespace Comparator
variable {σ : Type}

/-- How two values relate; values of other shapes are not asked about. -/
def compare (c : Comparator σ) (a b : Value) : HostM σ Relation :=
  match a.as? c.leftShape, b.as? c.rightShape with
  | some x, some y => HostM.called (.compare c.left c.right a b) (c.relate x y)
  | _, _ => pure .unknown

/-- The pair of types that a comparator relates, in words. -/
def inspect (c : Comparator σ) : String :=
  "ComparatorEntry(" ++ c.left.name ++ " <=> " ++ c.right.name ++ ")"

end Comparator

end ScriptEngine
