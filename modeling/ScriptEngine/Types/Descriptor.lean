import ScriptEngine.Error
import ScriptEngine.Host
import ScriptEngine.Text.Basic

/-! Descriptions of types.

A descriptor says what a type is called, which shape its payloads have, which types
it is a subtype of, and where it is listed. It may come with a supplier of the value
that stands in when a pattern leaves one out, and with a changer for its values. -/
namespace ScriptEngine

/-- How values of a type are changed. -/
structure Changer (σ : Type) where
  /-- The types that a delta may have in a mode, if the mode is supported. -/
  accepts : ChangeMode → Option (List TypeKey)
  /-- Changes values; only called with a mode and a delta that were accepted. -/
  change : List Value → Option (List Value) → ChangeMode → HostM σ (Outcome Unit)

/-- Has the host change values; a refusal stands in the journal after all that the host did. -/
def Changer.apply {σ : Type} (c : Changer σ) (values : List Value) (delta : Option (List Value))
    (mode : ChangeMode) : HostM σ (Outcome Unit) :=
  HostM.called (.change mode values delta) do
    match ← c.change values delta mode with
    | .ok _ => return .ok ()
    | .error e =>
      HostM.note .refusal
      return .error e

/-- A registered type. -/
structure Descriptor (σ : Type) where
  key : TypeKey
  /-- The shape of payloads; only the universal type has none. -/
  native : Option Shape
  plural : String
  userName : Option String
  supertypes : List TypeKey
  /-- The types that this one is listed before. -/
  before : List TypeKey
  /-- The types that this one is listed after. -/
  after : List TypeKey
  supplier : Option (HostM σ (Option Value))
  changer : Option (Changer σ)

namespace Descriptor
variable {σ : Type}

/-- A type whose values carry payloads of a shape. -/
def ofShape (key : TypeKey) (shape : Shape) : Descriptor σ where
  key := key
  native := some shape
  plural := key.name ++ "s"
  userName := none
  supertypes := []
  before := []
  after := []
  supplier := none
  changer := none

def object : Descriptor σ where
  key := .object
  native := none
  plural := "objects"
  userName := none
  supertypes := []
  before := []
  after := []
  supplier := none
  changer := none

/-- The name for readers; the code name where there is no other. -/
def displayName (d : Descriptor σ) : String := d.userName.getD d.key.name

/-- The value that stands in when a pattern leaves one out. -/
def defaultValue (d : Descriptor σ) : HostM σ (Option Value) :=
  match d.supplier with
  | none => pure none
  | some supply => HostM.called (.supplyDefault d.key) supply

/-- Whether a placeholder with a name means this type. -/
def answersTo (d : Descriptor σ) (name : String) : Bool :=
  name == d.key.name || name == d.plural ||
    (match d.userName with
      | none => false
      | some u => Text.eqIgnoringCase u name)

/-- Whether a payload has the shape of this type. -/
def acceptsPayload (d : Descriptor σ) (v : Value) : Bool :=
  match d.native with
  | none => true
  | some shape => v.payload.shape == shape

/-- Strings, each quoted, between brackets. -/
def bracketed (items : List String) : String := "[" ++ String.intercalate ", " items ++ "]"

def inspect (d : Descriptor σ) : String :=
  let held :=
    match d.native with
    | none => "None"
    | some shape => "Some(" ++ Text.quoted shape.name ++ ")"
  "TypeDescriptor \x7b key: " ++ d.key.inspect ++ ", native: " ++ held ++
    ", plural: " ++ Text.quoted d.plural ++
    ", supertypes: " ++ bracketed (d.supertypes.map (·.inspect)) ++
    ", has_default: " ++ toString d.supplier.isSome ++
    ", has_changer: " ++ toString d.changer.isSome ++ " \x7d"

end Descriptor

end ScriptEngine
