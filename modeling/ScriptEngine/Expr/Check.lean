import ScriptEngine.Expr.Values

/-! Testing the values of a node under a condition.

Read with "and", a node passes if all its values do; read with "or", if one of them
does. The first value that decides ends the scan. A negated condition turns the
outcome around, but an event that is revoked before the scan is over makes every
condition false. -/
namespace ScriptEngine

/-- A test of values that the host may watch. -/
abbrev Test (σ : Type) : Type := Value → HostM σ Bool

namespace Quantifier

/-- What a condition comes to when no value decided it. -/
def undecided (negated : Bool) : Quantifier → Bool
  | .and => !negated
  | .or => negated

/-- What a condition comes to as soon as a value passed or failed, if that decides it. -/
def decided? (negated passed : Bool) : Quantifier → Option Bool
  | .and => if passed then none else some negated
  | .or => if passed then some (!negated) else none

end Quantifier

namespace Check
variable {σ : Type}

/-- Tests one value; the scan ends with a verdict or goes on without one. -/
def judge (ctx : ContextId) (q : Quantifier) (test : Test σ) (negated : Bool) (v : Value)
    (_ : Option Bool) : Eval σ (ForInStep (Option Bool)) := do
  if ← Eval.isRevoked ctx then return .done (some false)
  Eval.note (.test v)
  match q.decided? negated (← Eval.host (test v)) with
  | some verdict => return .done (some verdict)
  | none => return .yield none

/-- The verdict of a scan that is over. -/
def verdict (ctx : ContextId) (q : Quantifier) (negated : Bool) (scan : ForInStep (Option Bool)) :
    Eval σ Bool := do
  match scan.value with
  | some verdict => return verdict
  | none =>
    if ← Eval.isRevoked ctx then return false
    return q.undecided negated

def values (ctx : ContextId) (vs : List Value) (q : Quantifier) (test : Test σ) (negated : Bool) :
    Eval σ Bool := do
  verdict ctx q negated (← Node.scan (judge ctx q test negated) vs none)

end Check

/-- Tests the values of a node. -/
def Node.check {σ : Type} (ctx : ContextId) (test : Test σ) (negated : Bool) (n : Node σ) :
    Eval σ Bool := do
  Check.verdict ctx n.reading negated
    (← n.visit ctx (Check.judge ctx n.reading test negated) none)

end ScriptEngine
