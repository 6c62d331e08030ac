import ScriptEngine.Yaml.Token

/-! The nodes of YAML documents.

A document is a tree of scalars, sequences and mappings. An anchor before a node gives
it a number: the count of the names that were anchored before it. An alias names a node
by the number that its name has at that place, and stands for the last node of the
document with that number. As a name that is anchored again does not add to the count,
that node may come after the alias. -/
namespace ScriptEngine.Yaml

/-- What is said of a node before it: the number of its anchor, and its tag. -/
structure Properties where
  number : Option Nat
  tag : Option Tag

/-- A node of a document. -/
inductive Node where
  | scalar (properties : Properties) (style : Style) (text : String)
  | sequence (properties : Properties) (items : List Node)
  | mapping (properties : Properties) (entries : List (Node × Node))
  | alias (number : Nat)

namespace Node

/-- The scalar that stands where nothing is written. -/
def empty : Node := .scalar ⟨none, none⟩ .plain ""

mutual
/-- The nodes with a number, in the order of the document. -/
def numbered (number : Nat) : Node → List Node
  | .scalar ps style text => if ps.number = some number then [.scalar ps style text] else []
  | .sequence ps items =>
    (if ps.number = some number then [.sequence ps items] else []) ++ numberedItems number items
  | .mapping ps entries =>
    (if ps.number = some number then [.mapping ps entries] else []) ++
      numberedEntries number entries
  | .alias _ => []
/-- The nodes with a number among some items. -/
def numberedItems (number : Nat) : List Node → List Node
  | [] => []
  | item :: rest => numbered number item ++ numberedItems number rest
/-- The nodes with a number among some entries. -/
def numberedEntries (number : Nat) : List (Node × Node) → List Node
  | [] => []
  | (key, value) :: rest =>
    numbered number key ++ numbered number value ++ numberedEntries number rest
end

/-- What a node of a document stands for. -/
def target? (document : Node) : Node → Option Node
  | .alias number => (document.numbered number).getLast?
  | n => some n

end Node

end ScriptEngine.Yaml
