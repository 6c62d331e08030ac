/-! States of an event, and three-valued truth.

`Time` says which state of the running event a node's values are taken from.
`Kleenean` answers whether something may have happened: no, perhaps, yes. -/
namespace ScriptEngine

/-- Which state of the event values represent. -/
inductive Time where
  | past
  | default
  | future
  deriving DecidableEq

namespace Time

/-- All states, the past first. -/
def all : List Time := [.past, .default, .future]

/-- The number of a state: the present is zero, the past lies before it. -/
def toInt : Time → Int
  | .past => -1
  | .default => 0
  | .future => 1

/-- The state with a number. -/
def ofInt? (n : Int) : Option Time := all.find? fun t => t.toInt == n

def word : Time → String
  | .past => "past"
  | .default => "present"
  | .future => "future"

def code : Time → String
  | .past => "past"
  | .default => "default"
  | .future => "future"

def ofCode? (s : String) : Option Time := all.find? fun t => t.code == s

theorem ofInt?_toInt (t : Time) : ofInt? t.toInt = some t := by cases t <;> rfl

theorem ofInt?_eq_some {n : Int} {t : Time} : ofInt? n = some t ↔ n = t.toInt := by
  refine ⟨fun h => ?_, fun h => h ▸ ofInt?_toInt t⟩
  have hfound := List.find?_some h
  exact (beq_iff_eq.mp hfound).symm

theorem ofCode?_code (t : Time) : ofCode? t.code = some t := by cases t <;> decide

end Time

/-- Three-valued truth. -/
inductive Kleenean where
  | false
  | unknown
  | true
  deriving DecidableEq

namespace Kleenean

/-- All truth values, in ascending order. -/
def all : List Kleenean := [.false, .unknown, .true]

/-- Certainly so. -/
def isTrue (k : Kleenean) : Bool := k == .true

/-- Certainly not so. -/
def isFalse (k : Kleenean) : Bool := k == .false

/-- Two branches that may both have been taken. -/
def or : Kleenean → Kleenean → Kleenean
  | .true, _ => .true
  | _, .true => .true
  | .false, .false => .false
  | _, _ => .unknown

/-- Two branches of which one was taken. -/
def either (a b : Kleenean) : Kleenean := if a = b then a else .unknown

def index : Kleenean → Nat
  | .false => 0
  | .unknown => 1
  | .true => 2

def code : Kleenean → String
  | .false => "false"
  | .unknown => "unknown"
  | .true => "true"

def ofCode? (s : String) : Option Kleenean := all.find? fun k => k.code == s

end Kleenean

end ScriptEngine
