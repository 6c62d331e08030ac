import ScriptEngine.Decimal.Hundredths
import ScriptEngine.Engine.Registry

/-! The built-in types.

There are truth values, whole numbers, numbers and texts, besides the universal type.
Everything becomes text, and whole numbers become numbers. -/
namespace ScriptEngine.Standard
variable {σ : Type}

/-- Truth values. -/
def boolean : TypeKey := ⟨"boolean"⟩
/-- Whole numbers. -/
def integer : TypeKey := ⟨"integer"⟩
/-- Numbers. -/
def number : TypeKey := ⟨"number"⟩
/-- Texts. -/
def text : TypeKey := ⟨"text"⟩

/-- A type with a value that stands in when a pattern leaves one out. -/
def withDefault (d : Descriptor σ) (p : Payload) : Descriptor σ :=
  { d with supplier := some (pure (some ⟨d.key, p⟩)) }

/-- How two doubles are ordered; a number that is none is not. -/
def compareDoubles (x y : Float) : Option Ordering :=
  if x < y then some .lt
  else if y < x then some .gt
  else if x == y then some .eq
  else none

/-- The comparator of a type with itself. -/
def selfComparator (key : TypeKey) (shape : Shape)
    (relate : shape.Carrier → shape.Carrier → Relation) : Command σ :=
  .comparator ⟨key, key, shape, shape, fun x y => pure (relate x y)⟩

/-- The registration of the built-in types, in order. -/
def commands : List (Command σ) :=
  [ .type (withDefault
      { Descriptor.ofShape boolean .bool with plural := "booleans" } (.bool false)),
    .type (withDefault
      { Descriptor.ofShape integer .i64 with
        userName := some "whole number", before := [number] } (.i64 0)),
    .type (withDefault (.ofShape number .f64) (.f64 (Float.ofBits 0))),
    .type (withDefault
      { Descriptor.ofShape text .string with userName := some "string" } (.string "")),
    .converter integer number .i64 .f64 fun n => pure (some (Int64.toFloat n)),
    .converter integer text .i64 .string fun n => pure (some (toString (Int64.toInt n))),
    .converter number text .f64 .string fun x => pure (some (Decimal.showNumber x)),
    .converter boolean text .bool .string fun (b : Bool) =>
      pure (some (if b then "true" else "false")),
    selfComparator boolean .bool fun (a b : Bool) => .ofEquality (a == b),
    selfComparator integer .i64 fun a b =>
      .ofOrdering (compare (Int64.toInt a) (Int64.toInt b)),
    selfComparator number .f64 fun x y => .ofPartial (compareDoubles x y),
    selfComparator text .string fun s t => .ofEquality (Text.eqIgnoringCase s t) ]

end ScriptEngine.Standard
