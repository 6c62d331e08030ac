/-! The tokens of YAML: marks, names, tags and scalars, and the places where a block begins
or ends by its indentation.

A tag is a row of octets: its characters may be written by their octets, and these need
not make up a text. A tag that begins with an exclamation mark is local to its file, and
the text after the mark is its word; every other tag is global. -/
namespace ScriptEngine.Yaml

/-- A tag. -/
structure Tag where
  octets : List UInt8
  deriving DecidableEq

namespace Tag

/-- The octets of a text. -/
def ofText (text : String) : Tag := ⟨text.toList.flatMap String.utf8EncodeChar⟩

/-- Octets up to the first null, at which a tag ends. -/
def upToNull (octets : List UInt8) : Tag := ⟨octets.takeWhile (· ≠ 0)⟩

instance : Append Tag := ⟨fun a b => ⟨a.octets ++ b.octets⟩⟩

/-- The word of a local tag; a tag whose octets after the mark are no text has none. -/
def word? (t : Tag) : Option String :=
  match t.octets with
  | [] => none
  | mark :: rest => if mark = 0x21 then String.fromUTF8? ⟨rest.toArray⟩ else none

example : (ofText "!low").word? = some "low" := by decide +kernel

end Tag

/-- How a scalar is written. -/
inductive Style where
  | plain
  | quoted
  /-- After a bar, line by line. -/
  | literal
  /-- After an angle, with lines joined. -/
  | folded
  deriving DecidableEq

/-- A token. -/
inductive Token where
  | versionDirective (major minor : Nat)
  | tagDirective (handle : String) (lead : Tag)
  | documentStart
  | documentEnd
  | blockSequenceStart
  | blockMappingStart
  | blockEnd
  | flowSequenceStart
  | flowSequenceEnd
  | flowMappingStart
  | flowMappingEnd
  | blockEntry
  | flowEntry
  | key
  | value
  | alias (name : String)
  | anchor (name : String)
  /-- A tag; `none` stands for a tag that is written out in full. -/
  | tag (handle : Option String) (suffix : Tag)
  | scalar (style : Style) (text : String)
  deriving DecidableEq

end ScriptEngine.Yaml
