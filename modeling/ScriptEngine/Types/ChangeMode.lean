/-! Ways to change values. -/
namespace ScriptEngine

/-- What a change does to values. -/
inductive ChangeMode where
  | set
  | add
  | remove
  | removeAll
  | delete
  | reset
  deriving DecidableEq

namespace ChangeMode

/-- All modes, in the order they are listed to a host. -/
def all : List ChangeMode := [.set, .add, .remove, .removeAll, .delete, .reset]

/-- Deleting and resetting take no values to change with; every other mode needs some. -/
def takesDelta : ChangeMode → Bool
  | .delete => false
  | .reset => false
  | _ => true

def word : ChangeMode → String
  | .set => "set"
  | .add => "add"
  | .remove => "remove"
  | .removeAll => "remove all"
  | .delete => "delete"
  | .reset => "reset"

def code : ChangeMode → String
  | .set => "set"
  | .add => "add"
  | .remove => "remove"
  | .removeAll => "remove_all"
  | .delete => "delete"
  | .reset => "reset"

def ofCode? (s : String) : Option ChangeMode := all.find? fun m => m.code == s

def position (m : ChangeMode) : Nat := all.idxOf m

theorem ofCode?_code (m : ChangeMode) : ofCode? m.code = some m := by cases m <;> decide

end ChangeMode

end ScriptEngine
