import ScriptEngine.Yaml.Cutting
import ScriptEngine.Yaml.Node

/-! The documents of YAML texts.

A text holds any number of documents, and only as a whole is it well-formed. -/
namespace ScriptEngine.Yaml

/-- What is left to read, with the names that are known. -/
structure Reader where
  tokens : List Token
  /-- The names that have been anchored, each with the number of its latest anchor. -/
  names : List (String × Nat)
  /-- What the handles of tags stand for. -/
  handles : List (String × Tag)

/-- A step of reading, which may fail. -/
abbrev Read : Type → Type := StateT Reader Option

namespace Read

def peek : Read (Option Token) := do return (← get).tokens.head?

def skip : Read Unit := modify fun r => { r with tokens := r.tokens.tail }

/-- Passes over a token if it is next. -/
def accept (t : Token) : Read Bool := do
  if (← peek) = some t then
    skip
    return true
  return false

/-- Whether one of some tokens is next. -/
def atAny (ts : List Token) : Read Bool := do
  match ← peek with
  | none => return false
  | some t => return ts.contains t

/-! ### What is said of a node -/

/-- Anchors a name; the answer is the number of the anchor. -/
def anchor (name : String) : Read Nat := do
  let r ← get
  let number := r.names.length
  set { r with names := (name, number) :: r.names.filter fun p => p.1 != name }
  return number

/-- The node that a name stands for; the name must have been anchored. -/
def aliased (name : String) : Read Node := do
  let p ← (← get).names.find? fun p => p.1 == name
  return .alias p.2

/-- The tag that a handle and a suffix make; the handle must be known. -/
def tag (handle : Option String) (suffix : Tag) : Read Tag := do
  match handle with
  | none => return suffix
  | some h =>
    let p ← (← get).handles.find? fun p => p.1 == h
    return p.2 ++ suffix

/-- The anchor and the tag before a node, in either order, each at most once. -/
def properties : Read Properties := do
  match ← peek with
  | some (.anchor name) =>
    skip
    let number ← anchor name
    match ← peek with
    | some (.tag handle suffix) =>
      skip
      return ⟨some number, some (← tag handle suffix)⟩
    | _ => return ⟨some number, none⟩
  | some (.tag handle suffix) =>
    skip
    let t ← tag handle suffix
    match ← peek with
    | some (.anchor name) =>
      skip
      return ⟨some (← anchor name), some t⟩
    | _ => return ⟨none, some t⟩
  | _ => return ⟨none, none⟩

/-- Nothing is written after what is said of a node; something must have been said. -/
def emptyWith (ps : Properties) : Read Node :=
  if ps.number.isSome || ps.tag.isSome then return .scalar ps .plain "" else failure

/-! ### Nodes -/

mutual
/-- A node; `block` says whether it may be a block, `flat` whether a sequence may begin without
further indentation. -/
def node (block flat : Bool) : Nat → Read Node
  | 0 => failure
  | fuel + 1 => do
    if let some (.alias name) ← peek then
      skip
      return ← aliased name
    let ps ← properties
    match ← peek with
    | some .blockEntry => if flat then return .sequence ps (← flatItems fuel) else emptyWith ps
    | some (.scalar style text) =>
      skip
      return .scalar ps style text
    | some .flowSequenceStart =>
      skip
      return .sequence ps (← flowItems true fuel)
    | some .flowMappingStart =>
      skip
      return .mapping ps (← flowEntries true fuel)
    | other =>
      if block && other = some .blockSequenceStart then
        skip
        return .sequence ps (← blockItems fuel)
      else if block && other = some .blockMappingStart then
        skip
        return .mapping ps (← blockEntries fuel)
      else emptyWith ps
/-- A node, or nothing where one of some tokens is next. -/
def nodeUnless (ends : List Token) (block flat : Bool) : Nat → Read Node
  | 0 => failure
  | fuel + 1 => do if ← atAny ends then return .empty else node block flat fuel
/-- The items of a sequence in a block of its own. -/
def blockItems : Nat → Read (List Node)
  | 0 => failure
  | fuel + 1 => do
    if ← accept .blockEntry then
      let item ← nodeUnless [.blockEntry, .blockEnd] true false fuel
      return item :: (← blockItems fuel)
    else if ← accept .blockEnd then return []
    else failure
/-- The items of a sequence that is no farther in than the mapping around it. -/
def flatItems : Nat → Read (List Node)
  | 0 => failure
  | fuel + 1 => do
    if ← accept .blockEntry then
      let item ← nodeUnless [.blockEntry, .key, .value, .blockEnd] true false fuel
      return item :: (← flatItems fuel)
    else return []
/-- The entries of a mapping in a block, each of which begins with a key. -/
def blockEntries : Nat → Read (List (Node × Node))
  | 0 => failure
  | fuel + 1 => do
    if ← accept .key then
      let key ← nodeUnless [.key, .value, .blockEnd] true true fuel
      let value ←
        if ← accept .value then nodeUnless [.key, .value, .blockEnd] true true fuel
        else pure .empty
      return (key, value) :: (← blockEntries fuel)
    else if ← accept .blockEnd then return []
    else failure
/-- The items of a sequence in brackets; `first` says whether none has been read. A key that is
announced and left out takes the token after it along. -/
def flowItems (first : Bool) : Nat → Read (List Node)
  | 0 => failure
  | fuel + 1 => do
    if ← accept .flowSequenceEnd then return []
    if !first then
      if !(← accept .flowEntry) then failure
    if ← accept .flowSequenceEnd then return []
    if ← accept .key then
      let left ← atAny [.value, .flowEntry, .flowSequenceEnd]
      if left then skip
      let key ← if left then pure .empty else node false false fuel
      let value ←
        if ← accept .value then nodeUnless [.flowEntry, .flowSequenceEnd] false false fuel
        else pure .empty
      return .mapping ⟨none, none⟩ [(key, value)] :: (← flowItems false fuel)
    else
      let item ← node false false fuel
      return item :: (← flowItems false fuel)
/-- The entries of a mapping in braces; `first` says whether none has been read. -/
def flowEntries (first : Bool) : Nat → Read (List (Node × Node))
  | 0 => failure
  | fuel + 1 => do
    if ← accept .flowMappingEnd then return []
    if !first then
      if !(← accept .flowEntry) then failure
    if ← accept .flowMappingEnd then return []
    if ← accept .key then
      let key ← nodeUnless [.value, .flowEntry, .flowMappingEnd] false false fuel
      let value ←
        if ← accept .value then nodeUnless [.flowEntry, .flowMappingEnd] false false fuel
        else pure .empty
      return (key, value) :: (← flowEntries false fuel)
    else
      let key ← node false false fuel
      return (key, .empty) :: (← flowEntries false fuel)
end

/-! ### Documents -/

/-- The directives before a document, at most one version among them. -/
def directives (versioned : Bool) : Nat → Read Bool
  | 0 => failure
  | fuel + 1 => do
    match ← peek with
    | some (.versionDirective major minor) =>
      if versioned ∨ major ≠ 1 ∨ (minor ≠ 1 ∧ minor ≠ 2) then failure
      skip
      let _ ← directives true fuel
      return true
    | some (.tagDirective handle lead) =>
      let known := (← get).handles
      if known.any fun p => p.1 == handle then failure
      modify fun r => { r with handles := known ++ [(handle, lead)] }
      skip
      let _ ← directives versioned fuel
      return true
    | _ => return false

/-- The handles that every document knows. -/
def standardHandles : List (String × Tag) :=
  [("!", .ofText "!"), ("!!", .ofText "tag:yaml.org,2002:")]

/-- The content of a document, or nothing where it has none. -/
def content (fuel : Nat) : Read Node := do
  match ← peek with
  | none => return .empty
  | some .documentStart => return .empty
  | some .documentEnd => return .empty
  | some (.versionDirective ..) => return .empty
  | some (.tagDirective ..) => return .empty
  | some _ => node true false fuel

/-- Reads documents to the end of the text. Only the first may do without a mark before it. -/
def documents (first : Bool) : Nat → Read (List Node)
  | 0 => failure
  | fuel + 1 => do
    let size := (← get).tokens.length + 1
    modify fun r => { r with names := [], handles := [] }
    if !first then
      modify fun r => { r with tokens := r.tokens.dropWhile (· = .documentEnd) }
    if (← get).tokens.isEmpty then return []
    let directed ← directives false size
    modify fun r => { r with handles := r.handles ++ standardHandles }
    let marked ← accept .documentStart
    if !marked && (directed || !first) then failure
    let n ← if marked then content (4 * size) else node true false (4 * size)
    let _ ← accept .documentEnd
    return n :: (← documents false fuel)

end Read

/-- The documents of a text, if it is well-formed. -/
def documents? (text : List Char) : Option (List Node) := do
  let tokens ← tokens? text
  let (nodes, _) ← (Read.documents true (tokens.length + 2)).run ⟨tokens, [], []⟩
  return nodes

end ScriptEngine.Yaml
