/-! The kinds of things a script is made of, and how specific patterns are.

The patterns of an expression have a rank; those of the most specific rank are tried
first. -/
namespace ScriptEngine

/-- What an element of a script is. -/
inductive ElementKind where
  | condition
  | effect
  | expression
  | event
  deriving DecidableEq

def ElementKind.word : ElementKind → String
  | .condition => "condition"
  | .effect => "effect"
  | .expression => "expression"
  | .event => "event"

/-- How specific the patterns of an expression are; the most specific are matched first. -/
inductive Rank where
  /-- Fixed wording without placeholders. -/
  | simple
  /-- A property of something. -/
  | property
  | normal
  /-- Patterns that begin or end with a placeholder. -/
  | combined
  /-- Patterns that would match anything. -/
  | patternMatchesEverything
  deriving DecidableEq

namespace Rank

/-- All ranks, the most specific first. -/
def all : List Rank := [.simple, .property, .normal, .combined, .patternMatchesEverything]

def index : Rank → Nat
  | .simple => 0
  | .property => 1
  | .normal => 2
  | .combined => 3
  | .patternMatchesEverything => 4

def code : Rank → String
  | .simple => "simple"
  | .property => "property"
  | .normal => "normal"
  | .combined => "combined"
  | .patternMatchesEverything => "pattern_matches_everything"

def ofCode? (s : String) : Option Rank := all.find? fun r => r.code == s

/-- The rank as it is named in listings of constructs. -/
def title : Rank → String
  | .simple => "Simple"
  | .property => "Property"
  | .normal => "Normal"
  | .combined => "Combined"
  | .patternMatchesEverything => "PatternMatchesEverything"

theorem ofCode?_code (r : Rank) : ofCode? r.code = some r := by cases r <;> decide

theorem index_injective {r s : Rank} (h : r.index = s.index) : r = s := by
  cases r <;> cases s <;> simp_all [index]

end Rank

end ScriptEngine
