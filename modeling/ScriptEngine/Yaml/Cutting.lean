import ScriptEngine.Yaml.Property
import ScriptEngine.Yaml.Scalar

/-! Texts cut into YAML tokens. -/
namespace ScriptEngine.Yaml

/-- Passes over white space and comments before a token. A byte order mark may begin any line. Tabs
count as white space where no key may begin, or between brackets. -/
def passToToken : Nat → Cut Unit
  | 0 => pure ()
  | fuel + 1 => do
    let c ← get
    if c.column = 0 ∧ c.rest.head? = some '\ufeff' then pass 1
    let _ ← passWhile fun x => x = ' ' || ((0 < c.flow || !c.keyAllowed) && x = '\t')
    passComment
    if (← ahead).head?.any isBreak then
      let _ ← passBreak
      if c.flow = 0 then allowKey true
      passToToken fuel

/-- Outside of brackets, an indicator must stand where a key may begin; it opens a block. -/
def indicator (t : Token) : Cut Unit := do
  let c ← get
  if c.flow = 0 then
    if !c.keyAllowed then failure
    openBlock c.column none t

/-- A bracket that opens. -/
def openFlow (t : Token) : Cut Unit := do
  noteKey
  modify fun c => { c with flow := c.flow + 1, keys := none :: c.keys, keyAllowed := true }
  pass 1
  emit t

/-- A bracket that closes. -/
def closeFlow (t : Token) : Cut Unit := do
  dropKey
  modify fun c =>
    { c with
      flow := c.flow - 1
      keys := if c.flow = 0 then c.keys else c.keys.tail
      keyAllowed := false }
  pass 1
  emit t

/-- A comma between brackets. -/
def flowEntry : Cut Unit := do
  dropKey
  allowKey true
  pass 1
  emit .flowEntry

/-- A dash before an item. -/
def blockEntry : Cut Unit := do
  indicator .blockSequenceStart
  dropKey
  allowKey true
  pass 1
  emit .blockEntry

/-- A question mark, which announces a key. -/
def keyMark : Cut Unit := do
  indicator .blockMappingStart
  dropKey
  allowKey ((← get).flow = 0)
  pass 1
  emit .key

/-- A colon after a key, or before the value of a key that was announced. -/
def valueMark : Cut Unit := do
  let c ← get
  match c.keys with
  | some k :: others =>
    emitAt k.token .key
    openBlock k.column (some k.token) .blockMappingStart
    modify fun d => { d with keys := none :: others, keyAllowed := false }
  | _ =>
    indicator .blockMappingStart
    allowKey (c.flow = 0)
  pass 1
  emit .value

/-- A mark between documents. -/
def documentMark (t : Token) : Cut Unit := do
  closeBlocksTo (-1)
  dropKey
  allowKey false
  pass 3
  emit t

/-- Cuts the token that a text begins with. -/
def cutToken (c : Cutter) (fuel : Nat) : Cut Unit := do
  match c.rest with
  | [] => return ()
  | first :: rest =>
    if c.column = 0 ∧ first = '%' then cutDirective fuel
    else if ← atMarks '-' then documentMark .documentStart
    else if ← atMarks '.' then documentMark .documentEnd
    else if first = '[' then openFlow .flowSequenceStart
    else if first = '\x7b' then openFlow .flowMappingStart
    else if first = ']' then closeFlow .flowSequenceEnd
    else if first = '\x7d' then closeFlow .flowMappingEnd
    else if first = ',' then flowEntry
    else if first = '-' ∧ atGap rest then blockEntry
    else if first = '?' ∧ (0 < c.flow ∨ atGap rest) then keyMark
    else if first = ':' ∧ (0 < c.flow ∨ atGap rest) then valueMark
    else if first = '*' then emit (.alias (← reference))
    else if first = '&' then emit (.anchor (← reference))
    else if first = '!' then cutTag fuel
    else if first = '|' ∧ c.flow = 0 then cutBlock false fuel
    else if first = '>' ∧ c.flow = 0 then cutBlock true fuel
    else if first = '\'' then cutQuoted '\'' fuel
    else if first = '"' then cutQuoted '"' fuel
    else if beginsPlain c.flow c.rest then cutPlain fuel
    else failure

/-- Cuts tokens to the end of the text, which is no longer than the fuel. -/
def cutAll : Nat → Cut Unit
  | 0 => failure
  | fuel + 1 => do
    passToToken (fuel + 1)
    checkKey
    closeBlocksTo (← get).column
    let c ← get
    if c.rest.isEmpty then
      closeBlocksTo (-1)
      dropKey
    else
      cutToken c (fuel + 1)
      cutAll fuel

/-- The tokens of a text, if it can be cut into tokens. -/
def tokens? (text : List Char) : Option (List Token) :=
  if text.all isPrintable then
    ((cutAll (text.length + 1)).run (Cutter.start text)).map fun (_, c) => c.tokens.reverse
  else none

end ScriptEngine.Yaml
