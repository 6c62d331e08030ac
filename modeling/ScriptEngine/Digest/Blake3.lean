/-! The BLAKE3 hash function.

A message is cut into chunks of 1024 bytes and a chunk into blocks of 64. Each
chunk ends in a pending compression; pending compressions are joined in pairs,
level by level, until one is left, and that one is the root. -/
namespace ScriptEngine.Digest

/-- Eight words: the value that links compressions. -/
abbrev ChainingValue := Vector UInt32 8

/-- Sixteen words: a block of a message, or the state of a compression. -/
abbrev Words := Vector UInt32 16

/-- The value a message starts from. -/
def initial : ChainingValue :=
  #v[0x6A09E667, 0xBB67AE85, 0x3C6EF372, 0xA54FF53A, 0x510E527F, 0x9B05688C, 0x1F83D9AB, 0x5BE0CD19]

/-- Marks the first block of a chunk. -/
def chunkStart : UInt32 := 1
/-- Marks the last block of a chunk. -/
def chunkEnd : UInt32 := 2
/-- Marks a block made of two chaining values. -/
def parent : UInt32 := 4
/-- Marks the last compression of all. -/
def root : UInt32 := 8

/-- The word turned right by a number of bits. -/
def turn (x : UInt32) (n : UInt32) : UInt32 := (x >>> n) ||| (x <<< (32 - n))

/-- Mixes two message words into four words of the state. -/
def mix (v : Words) (a b c d : Fin 16) (x y : UInt32) : Words :=
  let v := v.set a (v[a] + v[b] + x)
  let v := v.set d (turn (v[d] ^^^ v[a]) 16)
  let v := v.set c (v[c] + v[d])
  let v := v.set b (turn (v[b] ^^^ v[c]) 12)
  let v := v.set a (v[a] + v[b] + y)
  let v := v.set d (turn (v[d] ^^^ v[a]) 8)
  let v := v.set c (v[c] + v[d])
  v.set b (turn (v[b] ^^^ v[c]) 7)

/-- One round: the columns of the state, then its diagonals. -/
def mixAll (m v : Words) : Words :=
  let v := mix v 0 4 8 12 m[0] m[1]
  let v := mix v 1 5 9 13 m[2] m[3]
  let v := mix v 2 6 10 14 m[4] m[5]
  let v := mix v 3 7 11 15 m[6] m[7]
  let v := mix v 0 5 10 15 m[8] m[9]
  let v := mix v 1 6 11 12 m[10] m[11]
  let v := mix v 2 7 8 13 m[12] m[13]
  mix v 3 4 9 14 m[14] m[15]

/-- The order of the message words in the next round. -/
def permute (m : Words) : Words :=
  #v[m[2], m[6], m[3], m[10], m[7], m[0], m[4], m[13],
    m[1], m[11], m[12], m[5], m[9], m[14], m[15], m[8]]

def rounds : Nat → Words → Words → Words
  | 0, _, v => v
  | n + 1, m, v => rounds n (permute m) (mixAll m v)

/-- A compression that has not been carried out. -/
structure Pending where
  chaining : ChainingValue
  block : Words
  counter : UInt64
  length : UInt32
  flags : UInt32

/-- The sixteen words that a compression yields. -/
def Pending.compress (p : Pending) (extra : UInt32) : Words :=
  let h := p.chaining
  let v : Words :=
    #v[h[0], h[1], h[2], h[3], h[4], h[5], h[6], h[7],
      initial[0], initial[1], initial[2], initial[3],
      p.counter.toUInt32, (p.counter >>> 32).toUInt32, p.length, p.flags ||| extra]
  let v := rounds 7 p.block v
  #v[v[0] ^^^ v[8], v[1] ^^^ v[9], v[2] ^^^ v[10], v[3] ^^^ v[11],
    v[4] ^^^ v[12], v[5] ^^^ v[13], v[6] ^^^ v[14], v[7] ^^^ v[15],
    v[8] ^^^ h[0], v[9] ^^^ h[1], v[10] ^^^ h[2], v[11] ^^^ h[3],
    v[12] ^^^ h[4], v[13] ^^^ h[5], v[14] ^^^ h[6], v[15] ^^^ h[7]]

/-- The chaining value that a compression inside the tree yields. -/
def Pending.value (p : Pending) : ChainingValue :=
  let w := p.compress 0
  #v[w[0], w[1], w[2], w[3], w[4], w[5], w[6], w[7]]

/-- The word that four bytes make, lowest first; missing bytes are zero. -/
def word (bytes : List UInt8) : UInt32 :=
  (bytes.take 4).foldr (fun b w => (w <<< 8) ||| b.toUInt32) 0

/-- The sixteen words of a block, filled up with zeros. -/
def blockWords (bytes : List UInt8) : Words :=
  Vector.ofFn fun i : Fin 16 => word (bytes.drop (4 * i.val))

/-- A list cut into pieces of a positive size, the last one possibly shorter; `fuel` bounds their
number. -/
def pieces {α : Type} (size : Nat) : Nat → List α → List (List α)
  | 0, _ => []
  | fuel + 1, xs =>
    match xs with
    | [] => []
    | _ => xs.take size :: pieces size fuel (xs.drop size)

/-- Compresses the blocks of a chunk but the last, which is left pending. -/
def chain (counter : UInt64) (chaining : ChainingValue) (start : UInt32) :
    List (List UInt8) → Pending
  | [] => ⟨chaining, blockWords [], counter, 0, start ||| chunkEnd⟩
  | [block] => ⟨chaining, blockWords block, counter, UInt32.ofNat block.length, start ||| chunkEnd⟩
  | block :: rest =>
    let p : Pending := ⟨chaining, blockWords block, counter, UInt32.ofNat block.length, start⟩
    chain counter p.value 0 rest

/-- The pending end of one chunk. -/
def chunk (counter : Nat) (bytes : List UInt8) : Pending :=
  chain (UInt64.ofNat counter) initial chunkStart (pieces 64 16 bytes)

/-- Two pending compressions joined. -/
def join (left right : Pending) : Pending :=
  ⟨initial, left.value ++ right.value, 0, 64, parent⟩

/-- Joins neighbours; a last one without a partner stays. -/
def joinPairs : List Pending → List Pending
  | left :: right :: rest => join left right :: joinPairs rest
  | rest => rest

/-- Joins level by level, `fuel` levels at most. -/
def joinAll : Nat → List Pending → Pending
  | fuel + 1, left :: right :: rest => joinAll fuel (joinPairs (left :: right :: rest))
  | _, p :: _ => p
  | _, [] => chunk 0 []

def chunks : Nat → List (List UInt8) → List Pending
  | _, [] => []
  | counter, c :: rest => chunk counter c :: chunks (counter + 1) rest

/-- The four bytes of a word, lowest first. -/
def wordBytes (w : UInt32) : List UInt8 :=
  [w.toUInt8, (w >>> 8).toUInt8, (w >>> 16).toUInt8, (w >>> 24).toUInt8]

/-- The 32 bytes of the hash of a message. -/
def blake3 (message : List UInt8) : List UInt8 :=
  let parts := pieces 1024 (message.length / 1024 + 1) message
  let top := joinAll (parts.length + 1) (chunks 0 parts)
  let w := { top with counter := 0 }.compress root
  (w.toList.take 8).flatMap wordBytes

/-- A byte as two hexadecimal digits. -/
def hexByte (b : UInt8) : List Char :=
  [Nat.digitChar (b.toNat / 16), Nat.digitChar (b.toNat % 16)]

def hex (bytes : List UInt8) : String := String.ofList (bytes.flatMap hexByte)

end ScriptEngine.Digest
