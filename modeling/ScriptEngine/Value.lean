import ScriptEngine.Decimal.Shortest
import ScriptEngine.Text.Quoted

/-! Values and the keys of their types.

A value is a payload tagged with the key of a type. The payload has a shape; code
that works on payloads of one shape takes them as elements of the shape's carrier, so
that it cannot meet a payload of another shape. There is no null value: where a value
may be missing, the engine has an empty list or an `Option`.

A host may keep data of its own behind a value. Such a payload is the name of a cell:
what the cell holds, and so how it is shown, is the host's affair. -/
namespace ScriptEngine

/-! ### Type keys -/

/-- The code name of a type. -/
structure TypeKey where
  name : String
  deriving DecidableEq

namespace TypeKey

/-- The universal type, which every value satisfies. -/
def object : TypeKey := ⟨"object"⟩

def isObject (k : TypeKey) : Bool := k == object

/-- A key with its kind of thing written around it. -/
def inspect (k : TypeKey) : String := "TypeKey(" ++ k.name ++ ")"

def names (keys : List TypeKey) : List String := keys.map (·.name)

end TypeKey

/-! ### Payloads -/

/-- What kind of data a payload is. -/
inductive Shape where
  | bool
  | i64
  | f64
  | string
  | u8
  /-- A cell of the host, of a kind that the host has named. -/
  | host (name : String)
  deriving DecidableEq

namespace Shape

def name : Shape → String
  | .bool => "bool"
  | .i64 => "i64"
  | .f64 => "f64"
  | .string => "alloc::string::String"
  | .u8 => "u8"
  | .host name => name

/-- The data that payloads of a shape hold; for a host's shape, the names of cells. -/
def Carrier : Shape → Type
  | .bool => Bool
  | .i64 => Int64
  | .f64 => Float
  | .string => String
  | .u8 => UInt8
  | .host _ => String

end Shape

/-- The data of a value. -/
inductive Payload where
  | bool (value : Bool)
  | i64 (value : Int64)
  | f64 (value : Float)
  | string (value : String)
  | u8 (value : UInt8)
  | host (shape cell : String)

namespace Payload

def shape : Payload → Shape
  | .bool _ => .bool
  | .i64 _ => .i64
  | .f64 _ => .f64
  | .string _ => .string
  | .u8 _ => .u8
  | .host name _ => .host name

/-- The payload of a shape that holds some data. -/
def of : (s : Shape) → s.Carrier → Payload
  | .bool, b => .bool b
  | .i64, n => .i64 n
  | .f64, x => .f64 x
  | .string, s => .string s
  | .u8, n => .u8 n
  | .host name, cell => .host name cell

/-- The data of a payload, if it has the given shape. -/
def as? : (s : Shape) → Payload → Option s.Carrier
  | .bool, .bool b => some b
  | .i64, .i64 n => some n
  | .f64, .f64 x => some x
  | .string, .string s => some s
  | .u8, .u8 n => some n
  | .host name, .host name' cell => if name = name' then some cell else none
  | _, _ => none

@[simp] theorem shape_of (s : Shape) (x : s.Carrier) : (of s x).shape = s := by
  cases s <;> rfl

@[simp] theorem as?_of (s : Shape) (x : s.Carrier) : as? s (of s x) = some x := by
  cases s <;> simp [as?, of]

/-- A payload holds data of its own shape. -/
theorem exists_as?_shape (p : Payload) : ∃ x, as? p.shape p = some x := by
  cases p with
  | host name cell => exact ⟨cell, if_pos rfl⟩
  | _ => exact ⟨_, rfl⟩

end Payload

/-! ### Values -/

/-- A payload tagged with the key of a type. -/
structure Value where
  type : TypeKey
  payload : Payload

/-- How a host shows what its cells hold. -/
class HostCells (σ : Type) where
  showCell : σ → (shape cell : String) → String

/-- The text of a payload, in a state of the host. -/
def Payload.render {σ : Type} [HostCells σ] (host : σ) : Payload → String
  | .bool b => if b then "true" else "false"
  | .i64 n => toString n.toInt
  | .f64 x => Decimal.shortest x
  | .string s => Text.quoted s
  | .u8 n => toString n.toNat
  | .host shape cell => HostCells.showCell host shape cell

namespace Value
variable {σ : Type} [HostCells σ]

/-- The data of a value, if its payload has the given shape. -/
def as? (s : Shape) (v : Value) : Option s.Carrier := v.payload.as? s

def render (host : σ) (v : Value) : String := v.payload.render host

/-- The text of a value with the key of its type before it. -/
def inspect (host : σ) (v : Value) : String := v.type.name ++ ":" ++ v.render host

end Value

end ScriptEngine
