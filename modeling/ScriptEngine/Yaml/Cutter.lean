import ScriptEngine.Yaml.Character
import ScriptEngine.Yaml.Token

/-! The cutter of YAML tokens.

A text is cut into tokens from left to right. Indentation opens and closes blocks, so
the cutter keeps the indentations it is inside of. Whether a scalar is a key shows only
when its colon is met: for each level of brackets the cutter keeps where such a key
would begin, and puts the key's token there once it knows. -/
namespace ScriptEngine.Yaml

/-- Where a key may begin. -/
structure KeyStart where
  /-- Whether what begins here can be nothing but a key. -/
  required : Bool
  /-- The number of tokens before it. -/
  token : Nat
  line : Nat
  column : Nat
  index : Nat

/-- The state of the cutter. -/
structure Cutter where
  rest : List Char
  line : Nat
  column : Nat
  /-- The number of octets before what is left. -/
  index : Nat
  /-- The tokens so far, the latest first. -/
  tokens : List Token
  /-- The number of tokens so far. -/
  count : Nat
  /-- The indentation of the innermost block; `-1` outside of all blocks. -/
  indent : Int
  /-- The indentations of the blocks around it. -/
  outer : List Int
  /-- The number of open brackets. -/
  flow : Nat
  keyAllowed : Bool
  /-- Where a key may begin, for each level of brackets, the innermost first. -/
  keys : List (Option KeyStart)

/-- A step of the cutter, which may fail. -/
abbrev Cut : Type → Type := StateT Cutter Option

def Cutter.start (text : List Char) : Cutter where
  rest := text
  line := 0
  column := 0
  index := 0
  tokens := []
  count := 0
  indent := -1
  outer := []
  flow := 0
  keyAllowed := true
  keys := [none]

/-! ### Steps -/

/-- The text that is left. -/
def ahead : Cut (List Char) := do return (← get).rest

/-- Passes over some characters of a line. -/
def pass (count : Nat) : Cut Unit :=
  modify fun c =>
    { c with
      rest := c.rest.drop count
      column := c.column + count
      index := c.index + octetCount (c.rest.take count) }

/-- Passes over the end of a line, and gives it as it counts in a text. -/
def passBreak : Cut (List Char) := do
  let c ← get
  let (count, kept) : Nat × List Char :=
    match c.rest with
    | '\r' :: '\n' :: _ => (2, ['\n'])
    | '\u2028' :: _ => (1, ['\u2028'])
    | '\u2029' :: _ => (1, ['\u2029'])
    | b :: _ => if isBreak b then (1, ['\n']) else (0, [])
    | [] => (0, [])
  if count = 0 then return []
  pass count
  modify fun d => { d with line := c.line + 1, column := 0 }
  return kept

/-- Passes over the characters up to the first that fails a test. -/
def passWhile (p : Char → Bool) : Cut (List Char) := do
  let found := (← ahead).takeWhile p
  pass found.length
  return found

/-- Passes over a comment, if one begins here. -/
def passComment : Cut Unit := do
  if (← ahead).head? = some '#' then
    let _ ← passWhile fun x => !isBreak x

def emit (t : Token) : Cut Unit :=
  modify fun c => { c with tokens := t :: c.tokens, count := c.count + 1 }

/-- Adds a token where there are some number of others before it. -/
def emitAt (place : Nat) (t : Token) : Cut Unit :=
  modify fun c =>
    { c with tokens := c.tokens.insertIdx (c.count - place) t, count := c.count + 1 }

/-- Sets whether a key may begin next. -/
def allowKey (allowed : Bool) : Cut Unit := modify fun c => { c with keyAllowed := allowed }

/-- Whether the text is in column zero and goes on with three marks and a gap. -/
def atMarks (mark : Char) : Cut Bool := do
  let c ← get
  match c.rest with
  | a :: b :: d :: rest =>
    return c.column == 0 && a == mark && b == mark && d == mark && atGap rest
  | _ => return false

/-- Whether the text goes on with a mark between documents. -/
def atDocumentMark : Cut Bool := do return (← atMarks '-') || (← atMarks '.')

/-! ### Indentation and keys -/

/-- Opens a block if the column lies farther in than the innermost one. -/
def openBlock (column : Nat) (place : Option Nat) (t : Token) : Cut Unit := do
  let c ← get
  if c.flow = 0 ∧ c.indent < column then
    set { c with indent := column, outer := c.indent :: c.outer }
    match place with
    | some n => emitAt n t
    | none => emit t

/-- Closes the blocks that lie farther in than a column, `fuel` of them at most. -/
def closeBlocks (column : Int) : Nat → Cut Unit
  | 0 => pure ()
  | fuel + 1 => do
    let c ← get
    if c.flow = 0 ∧ column < c.indent then
      set { c with indent := c.outer.headD (-1), outer := c.outer.tail }
      emit .blockEnd
      closeBlocks column fuel

/-- Closes all blocks that lie farther in than a column. -/
def closeBlocksTo (column : Int) : Cut Unit := do closeBlocks column ((← get).outer.length + 1)

/-- Gives up the key that may have begun; one that was required must not be given up. -/
def dropKey : Cut Unit := do
  let c ← get
  match c.keys with
  | some k :: others =>
    if k.required then failure
    set { c with keys := none :: others }
  | _ => return ()

/-- Notes that a key may begin here. -/
def noteKey : Cut Unit := do
  let c ← get
  if c.keyAllowed then
    dropKey
    let required := c.flow == 0 && c.indent == c.column
    modify fun d =>
      { d with keys := some ⟨required, c.count, c.line, c.column, c.index⟩ :: d.keys.tail }

/-- A key must stand on one line and take 1024 octets at most; one that does not is given up. -/
def checkKey : Cut Unit := do
  let c ← get
  match c.keys with
  | some k :: _ => if k.line < c.line ∨ k.index + 1024 < c.index then dropKey
  | _ => return ()

end ScriptEngine.Yaml
