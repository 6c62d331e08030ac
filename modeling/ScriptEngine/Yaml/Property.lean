import ScriptEngine.Yaml.Cutter

/-! What is said of YAML nodes and documents: anchors and aliases, tags, and directives.

A character of a tag may be written by its octets, each as a percent sign and two
hexadecimal digits. The first octet tells how many belong together. Fuel is at least the
length of the text that is left. -/
namespace ScriptEngine.Yaml

/-! ### Anchors and aliases -/

/-- The name after an anchor's or an alias's mark. -/
def reference : Cut String := do
  noteKey
  allowKey false
  pass 1
  let name ← passWhile isNameChar
  let rest ← ahead
  let ended := atGap rest || rest.head?.any fun c => "?:,]\x7d%@\x60".toList.contains c
  if name.isEmpty ∨ !ended then failure
  return String.ofList name

/-! ### Tags -/

/-- The octet that a percent sign and two hexadecimal digits stand for. -/
def writtenOctet : Cut UInt8 := do
  match ← ahead with
  | '%' :: a :: b :: _ =>
    let n ← hexValue? [a, b]
    pass 3
    return UInt8.ofNat n
  | _ => failure

/-- How many octets follow the first one of a character. -/
def following? (first : UInt8) : Option Nat :=
  if first < 0x80 then some 0
  else if first < 0xc0 then none
  else if first < 0xe0 then some 1
  else if first < 0xf0 then some 2
  else if first < 0xf8 then some 3
  else none

/-- The octets after the first one of a character. -/
def followingOctets : Nat → Cut (List UInt8)
  | 0 => return []
  | count + 1 => do
    let octet ← writtenOctet
    if octet < 0x80 ∨ 0xc0 ≤ octet then failure
    return octet :: (← followingOctets count)

/-- A character that is written by its octets. -/
def writtenCharacter : Cut (List UInt8) := do
  let first ← writtenOctet
  return first :: (← followingOctets (← following? first))

/-- The octets of characters up to the first that fails a test. -/
def octetsWhile (p : Char → Bool) : Nat → Cut (List UInt8)
  | 0 => return []
  | fuel + 1 => do
    match (← ahead).head? with
    | none => return []
    | some c =>
      if !p c then return []
      if c = '%' then
        let octets ← writtenCharacter
        return octets ++ (← octetsWhile p fuel)
      else
        pass 1
        return String.utf8EncodeChar c ++ (← octetsWhile p fuel)

/-- The octets of a tag or of a part of one, of which there is at least one. -/
def tagOctets (p : Char → Bool) (fuel : Nat) : Cut (List UInt8) := do
  let octets ← octetsWhile p fuel
  if octets.isEmpty then failure
  return octets

/-- A handle: a mark, or a name between two marks; or else what a tag begins with. -/
def tagHandle : Cut (List Char) := do
  pass 1
  let name ← passWhile isNameChar
  if (← ahead).head? = some '!' then
    pass 1
    return '!' :: name ++ ['!']
  return '!' :: name

/-- A tag after a mark: a handle and a suffix, or a suffix alone. The mark alone is a full tag. -/
def shortTag (fuel : Nat) : Cut Token := do
  let handle ← tagHandle
  if 1 < handle.length ∧ handle.getLast? = some '!' then
    return .tag (some (String.ofList handle)) (.upToNull (← tagOctets isTagChar fuel))
  let more ← octetsWhile isTagChar fuel
  let suffix := Tag.upToNull ((Tag.ofText (String.ofList (handle.drop 1))).octets ++ more)
  return if suffix.octets.isEmpty then .tag none (.ofText "!") else .tag (some "!") suffix

/-- A tag that is written out in full, between angles. -/
def fullTag (fuel : Nat) : Cut Token := do
  pass 2
  let octets ← tagOctets isUriChar fuel
  if (← ahead).head? ≠ some '>' then failure
  pass 1
  return .tag none (.upToNull octets)

def cutTag (fuel : Nat) : Cut Unit := do
  noteKey
  allowKey false
  let c ← get
  emit (← if (c.rest.drop 1).head? = some '<' then fullTag fuel else shortTag fuel)
  let rest ← ahead
  if !atGap rest && !(0 < c.flow && rest.head? = some ',') then failure

/-! ### Directives -/

/-- A number of at most nine digits. -/
def versionNumber : Cut Nat := do
  let digits ← passWhile Char.isDigit
  if digits.isEmpty ∨ 9 < digits.length then failure
  return digits.foldl (fun n c => 10 * n + (c.toNat - '0'.toNat)) 0

/-- The version that a directive names. -/
def versionDirective : Cut Token := do
  let major ← versionNumber
  if (← ahead).head? ≠ some '.' then failure
  pass 1
  return .versionDirective major (← versionNumber)

/-- The handle that a directive names, and what it stands for. -/
def tagDirective (fuel : Nat) : Cut Token := do
  if (← ahead).head? ≠ some '!' then failure
  let handle ← tagHandle
  if handle.getLast? ≠ some '!' then failure
  if (← passWhile isSpace).isEmpty then failure
  let octets ← tagOctets isUriChar fuel
  if !atGap (← ahead) then failure
  return .tagDirective (String.ofList handle) (.upToNull octets)

/-- Cuts a directive, which takes up a line. No key may begin on the next line, unless an empty one
comes between. -/
def cutDirective (fuel : Nat) : Cut Unit := do
  closeBlocksTo (-1)
  dropKey
  allowKey false
  pass 1
  let name ← passWhile isNameChar
  if !atGap (← ahead) then failure
  let _ ← passWhile isSpace
  if name = "YAML".toList then emit (← versionDirective)
  else if name = "TAG".toList then emit (← tagDirective fuel)
  else failure
  let _ ← passWhile isSpace
  passComment
  if !atLineEnd (← ahead) then failure
  let _ ← passBreak

end ScriptEngine.Yaml
