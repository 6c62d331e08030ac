/-! Breadth-first search in rounds.

A round follows every arrow out of the points found in the round before, in order,
and keeps the first arrival at each point not seen yet. `search` runs a given number
of rounds; every point is arrived at once, and a point found in an earlier round is no
farther from the start than one found in a later round. -/
namespace ScriptEngine.Search

/-- An arrow that was followed to a new point. -/
structure Arrival (α β : Type) where
  source : α
  label : β
  target : α

section
variable {α β : Type}

/-- The arrows out of some points, in order. -/
def arrows (out : α → List (β × α)) (points : List α) : List (Arrival α β) :=
  points.flatMap fun p => (out p).map fun arrow => ⟨p, arrow.1, arrow.2⟩

variable [DecidableEq α]

/-- The first arrow to each point that has not been seen. -/
def firstArrivals (seen : List α) : List (Arrival α β) → List (Arrival α β)
  | [] => []
  | a :: rest =>
    if a.target ∈ seen then firstArrivals seen rest
    else a :: firstArrivals (a.target :: seen) rest

/-- A number of rounds from some points. -/
def rounds (out : α → List (β × α)) : Nat → List α → List α → List (Arrival α β)
  | 0, _, _ => []
  | n + 1, seen, points =>
    let found := firstArrivals seen (arrows out points)
    let targets := found.map (·.target)
    found ++ rounds out n (targets ++ seen) targets

/-- The arrivals of a number of rounds from one point, which counts as seen. -/
def search (out : α → List (β × α)) (bound : Nat) (start : α) : List (Arrival α β) :=
  rounds out bound [start] [start]

end

end ScriptEngine.Search
