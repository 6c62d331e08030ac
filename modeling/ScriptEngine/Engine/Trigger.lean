import ScriptEngine.Grammar.Element

/-! Triggers: the elements of a script, and how they run.

The elements run in order. A condition that is false and an event that has been revoked
end the run, and so does an effect that fails. -/
namespace ScriptEngine

/-- A loaded script. -/
structure Trigger (σ : Type) where
  name : String
  roots : List (Element σ)

namespace Trigger
variable {σ : Type}

/-- The number of nodes in all elements. -/
def size (t : Trigger σ) : Nat := t.roots.foldr (fun root n => root.size + n) 0

/-- Runs elements in order; the answer says whether all of them were passed. -/
def runRoots (ctx : ContextId) (types : TypeRegistry σ) : List (Element σ) → Eval σ (Outcome Bool)
  | [] => pure (.ok true)
  | root :: rest => do
    if ← Eval.isRevoked ctx then return .ok false
    match root with
    | .condition id c =>
      Eval.note (.call (.check id ctx))
      if ← c.check ctx types then runRoots ctx types rest else return .ok false
    | .effect id e =>
      Eval.note (.call (.execute id ctx))
      match ← e.execute ctx types with
      | .error error => return .error error
      | .ok _ => runRoots ctx types rest
    | .expression _ => runRoots ctx types rest
    | .event .. => runRoots ctx types rest

def run (t : Trigger σ) (ctx : ContextId) (types : TypeRegistry σ) : Eval σ (Outcome Bool) :=
  runRoots ctx types t.roots

end Trigger

end ScriptEngine
