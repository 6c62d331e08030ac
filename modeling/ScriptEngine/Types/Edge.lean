import ScriptEngine.Host

/-! Conversions of values, and the edges that carry them.

A conversion turns a value into at most one value. A typed one takes payloads of one
shape to payloads of another and fails on every other payload without asking the host;
an erased one is handed the whole value. Conversions are put one after the other,
failing as soon as one of them fails. An edge is a conversion between two types,
together with the chain of types it passes through. -/
namespace ScriptEngine

/-! ### Conversions -/

/-- A way to turn a value into at most one other value. -/
inductive Conversion (σ : Type) where
  /-- A function from payloads of one shape to payloads of another. -/
  | typed (source target : TypeKey) (input output : Shape)
      (convert : input.Carrier → HostM σ (Option output.Carrier))
  /-- A function on whole values, which tags its results itself. -/
  | erased (source target : TypeKey) (convert : Value → HostM σ (Option Value))
  /-- One conversion after another. -/
  | seq (first second : Conversion σ)

namespace Conversion
variable {σ : Type}

def apply : Conversion σ → Value → HostM σ (Option Value)
  | .typed source target input output convert, v =>
    match v.as? input with
    | none => pure none
    | some x =>
      HostM.called (.convert source target v) do
        return (← convert x).map fun y => ⟨target, .of output y⟩
  | .erased source target convert, v => HostM.called (.convert source target v) (convert v)
  | .seq first second, v => do
    match ← first.apply v with
    | none => return none
    | some between => second.apply between

end Conversion

/-! ### Edges -/

/-- A conversion from one type to another. -/
structure Edge (σ : Type) where
  source : TypeKey
  target : TypeKey
  /-- The types passed through, the source first and the target last. -/
  chain : List TypeKey
  conversion : Conversion σ

namespace Edge
variable {σ : Type}

/-- The edge of a single conversion. -/
def direct (source target : TypeKey) (conversion : Conversion σ) : Edge σ :=
  ⟨source, target, [source, target], conversion⟩

/-- The edge of a function between payloads of two shapes. -/
def typed (source target : TypeKey) (input output : Shape)
    (convert : input.Carrier → HostM σ (Option output.Carrier)) : Edge σ :=
  direct source target (.typed source target input output convert)

/-- The edge of a function on whole values. -/
def erased (source target : TypeKey) (convert : Value → HostM σ (Option Value)) : Edge σ :=
  direct source target (.erased source target convert)

def apply (e : Edge σ) (v : Value) : HostM σ (Option Value) := e.conversion.apply v

/-- More than one conversion was put together. -/
def isComposed (e : Edge σ) : Bool := 2 < e.chain.length

/-- The same conversion for the values of a subtype of the source. -/
def rebased (e : Edge σ) (source : TypeKey) : Edge σ :=
  { e with source := source, chain := source :: e.chain }

/-- One edge and then another, which takes what the first one yields. -/
def followedBy (first second : Edge σ) : Edge σ where
  source := first.source
  target := second.target
  chain := first.chain ++ second.chain.tail
  conversion := .seq first.conversion second.conversion

/-- The chain of an edge, in words. -/
def inspect (e : Edge σ) : String :=
  "ConverterEdge(" ++ String.intercalate " -> " (TypeKey.names e.chain) ++ ")"

end Edge

end ScriptEngine
