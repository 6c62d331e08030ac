import ScriptEngine.Engine.Trigger
import ScriptEngine.Proofs.Runs

/-! How scripts run.

A script can stop for three reasons: a condition comes out false, an effect is refused, or the
event has been revoked by the time the next element's turn comes. Whatever the host does in the
elements, revoking the event included, a run is the `Course` of a list of `Stage`s: the first
elements of the script one after the other, each begun in a running event and in the world that
the one before it left, and all of them passed except perhaps the last. The answer says how the
course ended (`run_course`). -/
namespace ScriptEngine

/-! ### One element -/

/-- What an element does when its turn has come, and whether it lets the script go on. A condition
tests the event, an effect is carried out, and the other elements are passed by. -/
def Element.play {σ : Type} (ctx : ContextId) (types : TypeRegistry σ) :
    Element σ → Eval σ (Outcome Bool)
  | .condition id c => do
    Eval.note (.call (.check id ctx))
    return .ok (← c.check ctx types)
  | .effect id e => do
    Eval.note (.call (.execute id ctx))
    return (← e.execute ctx types).map fun _ => true
  | .expression _ => pure (.ok true)
  | .event .. => pure (.ok true)

namespace Trigger
variable {σ : Type} {ctx : ContextId} {types : TypeRegistry σ} {root : Element σ}
  {rest : List (Element σ)} {w w' : World σ} {out : Outcome Bool}

/-- A script runs element by element, as long as the event is not revoked and every element lets
it go on. -/
theorem runRoots_cons (ctx : ContextId) (types : TypeRegistry σ) (root : Element σ)
    (rest : List (Element σ)) :
    runRoots ctx types (root :: rest) = do
      if ← Eval.isRevoked ctx then return .ok false
      match ← root.play ctx types with
      | .ok true => runRoots ctx types rest
      | answer => return answer := by
  cases root with
  | condition id c =>
    rw [runRoots]
    refine bind_congr fun revoked => ?_
    rw [Element.play, bind_assoc]
    refine congrArg (ite _ _) (bind_congr fun _ => ?_)
    rw [bind_assoc]
    refine bind_congr fun holds => ?_
    cases holds <;> rfl
  | effect id e =>
    rw [runRoots]
    refine bind_congr fun revoked => ?_
    rw [Element.play, bind_assoc]
    refine congrArg (ite _ _) (bind_congr fun _ => ?_)
    rw [bind_assoc]
    refine bind_congr fun out => ?_
    cases out <;> rfl
  | expression => rfl
  | event => rfl

theorem run_revoked (h : w.isRevoked ctx = true) :
    (runRoots ctx types (root :: rest)).run w = (.ok false, w) := by
  have hasked : (Eval.isRevoked ctx).run w = (true, w) := congrArg (·, w) h
  rw [runRoots_cons, Eval.run_bind hasked]
  rfl

theorem run_passed (h : w.isRevoked ctx = false)
    (hplay : (root.play ctx types).run w = (.ok true, w')) :
    (runRoots ctx types (root :: rest)).run w = (runRoots ctx types rest).run w' := by
  have hasked : (Eval.isRevoked ctx).run w = (false, w) := congrArg (·, w) h
  rw [runRoots_cons, Eval.run_bind hasked]
  exact Eval.run_bind hplay

theorem run_stopped (h : w.isRevoked ctx = false)
    (hplay : (root.play ctx types).run w = (out, w')) (hstop : out ≠ .ok true) :
    (runRoots ctx types (root :: rest)).run w = (out, w') := by
  have hasked : (Eval.isRevoked ctx).run w = (false, w) := congrArg (·, w) h
  rw [runRoots_cons, Eval.run_bind hasked, if_neg Bool.false_ne_true]
  refine (Eval.run_bind hplay).trans ?_
  split
  · exact absurd rfl hstop
  · rfl

/-! ### Runs -/

/-- One element whose turn came, and the world in which it came. -/
structure Stage (σ : Type) where
  element : Element σ
  before : World σ

namespace Stage

/-- Whether the element let the script go on. -/
def answer (s : Stage σ) (ctx : ContextId) (types : TypeRegistry σ) : Outcome Bool :=
  ((s.element.play ctx types).run s.before).1

/-- The world that the element left. -/
def after (s : Stage σ) (ctx : ContextId) (types : TypeRegistry σ) : World σ :=
  ((s.element.play ctx types).run s.before).2

end Stage

/-- From one world to another, elements took their turns, each in the world that the one before it
left, and nothing else was done. -/
inductive Follows (ctx : ContextId) (types : TypeRegistry σ) :
    World σ → List (Stage σ) → World σ → Prop where
  | nothing {w : World σ} : Follows ctx types w [] w
  | turn {s : Stage σ} {stages w'} : Follows ctx types (s.after ctx types) stages w' →
      Follows ctx types s.before (s :: stages) w'

/-- How a script runs: the elements whose turns came, and the answer. -/
structure Course (ctx : ContextId) (types : TypeRegistry σ) (roots : List (Element σ))
    (w : World σ) (stages : List (Stage σ)) (answer : Outcome Bool) (w' : World σ) : Prop where
  follows : Follows ctx types w stages w'
  /-- The turns come in order, and each element has one at most. -/
  inOrder : stages.map (·.element) <+: roots
  /-- The event was running whenever an element began. -/
  running : ∀ s ∈ stages, s.before.isRevoked ctx = false
  /-- Every element before another one let the script go on. -/
  passed : stages.Pairwise fun earlier _ => earlier.answer ctx types = .ok true
  /-- All elements had their turns and were passed. -/
  ok_true : answer = .ok true ↔
    stages.map (·.element) = roots ∧ ∀ s ∈ stages, s.answer ctx types = .ok true
  /-- A condition came out false, or there was an element to come and the event was revoked. -/
  ok_false : answer = .ok false ↔
    (∃ s ∈ stages, s.answer ctx types = .ok false) ∨
      (∀ s ∈ stages, s.answer ctx types = .ok true) ∧ stages.map (·.element) ≠ roots ∧
        w'.isRevoked ctx = true
  /-- An effect was refused. -/
  error : ∀ e, answer = .error e ↔ ∃ s ∈ stages, s.answer ctx types = .error e

namespace Course
variable {s : Stage σ} {stages : List (Stage σ)}

theorem nothing (w : World σ) : Course ctx types [] w [] (.ok true) w := by
  constructor <;> simp [Follows.nothing]

theorem revoked (h : w.isRevoked ctx = true) :
    Course ctx types (root :: rest) w [] (.ok false) w := by
  constructor <;> simp [Follows.nothing, h]

theorem stopped (h : s.before.isRevoked ctx = false) (hstop : s.answer ctx types ≠ .ok true) :
    Course ctx types (s.element :: rest) s.before [s] (s.answer ctx types) (s.after ctx types) := by
  constructor <;> simp [Follows.turn Follows.nothing, h, hstop]

theorem turn (h : s.before.isRevoked ctx = false) (hpassed : s.answer ctx types = .ok true)
    (hrest : Course ctx types rest (s.after ctx types) stages out w') :
    Course ctx types (s.element :: rest) s.before (s :: stages) out w' where
  follows := .turn hrest.follows
  inOrder := by
    rw [List.map_cons, List.cons_prefix_cons]
    exact ⟨rfl, hrest.inOrder⟩
  running := List.forall_mem_cons.mpr ⟨h, hrest.running⟩
  passed := .cons (fun _ _ => hpassed) hrest.passed
  ok_true := by simp [hrest.ok_true, hpassed]
  ok_false := by simp [hrest.ok_false, hpassed]
  error e := by simp [hrest.error e, hpassed]

end Course

theorem runRoots_course (ctx : ContextId) (types : TypeRegistry σ) (roots : List (Element σ))
    (w : World σ) : ∃ stages, Course ctx types roots w stages ((runRoots ctx types roots).run w).1
      ((runRoots ctx types roots).run w).2 := by
  induction roots generalizing w with
  | nil => exact ⟨[], .nothing w⟩
  | cons root rest ih =>
    cases hrevoked : w.isRevoked ctx with
    | true =>
      rw [run_revoked hrevoked]
      exact ⟨[], .revoked hrevoked⟩
    | false =>
      let s : Stage σ := ⟨root, w⟩
      have hplay : (root.play ctx types).run w = (s.answer ctx types, s.after ctx types) := rfl
      by_cases hpassed : s.answer ctx types = .ok true
      · obtain ⟨stages, hstages⟩ := ih (s.after ctx types)
        rw [run_passed hrevoked (hpassed ▸ hplay)]
        exact ⟨s :: stages, .turn hrevoked hpassed hstages⟩
      · rw [run_stopped hrevoked hplay hpassed]
        exact ⟨[s], .stopped hrevoked hpassed⟩

/-- A script in two parts: the second one runs if all of the first one was passed. -/
theorem runRoots_append (ctx : ContextId) (types : TypeRegistry σ)
    (first second : List (Element σ)) :
    runRoots ctx types (first ++ second) = do
      match ← runRoots ctx types first with
      | .ok true => runRoots ctx types second
      | answer => return answer := by
  induction first with
  | nil => rfl
  | cons root rest ih =>
    rw [List.cons_append, runRoots_cons, runRoots_cons, bind_assoc]
    refine bind_congr fun revoked => ?_
    cases revoked with
    | true => rfl
    | false =>
      simp only [Bool.false_eq_true, if_false, bind_assoc]
      refine bind_congr fun out => ?_
      rcases out with _ | ⟨_ | _⟩
      · rfl
      · rfl
      · exact ih

/-- **A run of a script** is a course of stages: an element begins only in a running event, after
the elements before it were passed, and has one turn at most. The run answers that all elements
were passed, or that it stopped at a condition or for a revoked event, or why an effect was
refused. A script in two parts runs part by part. -/
theorem run_course (t : Trigger σ) (ctx : ContextId) (types : TypeRegistry σ) (w : World σ) :
    (∃ stages, Course ctx types t.roots w stages ((t.run ctx types).run w).1
      ((t.run ctx types).run w).2) ∧
    ∀ first second, t.roots = first ++ second →
      t.run ctx types = do
        match ← (Trigger.mk t.name first).run ctx types with
        | .ok true => (Trigger.mk t.name second).run ctx types
        | answer => return answer := by
  refine ⟨runRoots_course ctx types t.roots w, fun first second hroots => ?_⟩
  rw [run, hroots]
  exact runRoots_append ctx types first second

end Trigger
end ScriptEngine
