import BitLinear.Byte

/-!
# A ChaCha20 keystream

Twenty rounds, a key of 256 bits and a 64-bit block counter that starts at zero; the last two
words of the state are zero. The stream is read in whole 32-bit words: a request for `k` bytes
takes `⌈k / 4⌉` words and drops what is left of the last one. A stream never ends. After `2 ^ 64`
blocks the counter is back at zero and the stream repeats.
-/

namespace BitLinear

/-- A keystream and how far it has been read. -/
structure Keystream where
  /-- The key, as little-endian words. -/
  key : Vector UInt32 8
  /-- The number of words taken. -/
  position : Nat
deriving DecidableEq, Repr

namespace Keystream

/-! ## Blocks -/

/-- Sixteen words. -/
abbrev Block := Vector UInt32 16

/-- Rotate a word to the left by `k` bits, for `0 < k < 32`. -/
def rotateLeft (x k : UInt32) : UInt32 :=
  (x <<< k) ||| (x >>> (32 - k))

/-- Mix four words of a block. -/
def quarterRound (s : Block) (a b c d : Fin 16) : Block :=
  let s := s.set a (s[a] + s[b])
  let s := s.set d (rotateLeft (s[d] ^^^ s[a]) 16)
  let s := s.set c (s[c] + s[d])
  let s := s.set b (rotateLeft (s[b] ^^^ s[c]) 12)
  let s := s.set a (s[a] + s[b])
  let s := s.set d (rotateLeft (s[d] ^^^ s[a]) 8)
  let s := s.set c (s[c] + s[d])
  s.set b (rotateLeft (s[b] ^^^ s[c]) 7)

/-- Two rounds: the four columns, then the four diagonals. -/
def doubleRound (s : Block) : Block :=
  let s := quarterRound s 0 4 8 12
  let s := quarterRound s 1 5 9 13
  let s := quarterRound s 2 6 10 14
  let s := quarterRound s 3 7 11 15
  let s := quarterRound s 0 5 10 15
  let s := quarterRound s 1 6 11 12
  let s := quarterRound s 2 7 8 13
  quarterRound s 3 4 9 14

/-- The words that spell "expand 32-byte k". -/
def constants : Vector UInt32 4 :=
  #v[0x61707865, 0x3320646e, 0x79622d32, 0x6b206574]

/-- The state from which block `counter` is made. -/
def initialBlock (key : Vector UInt32 8) (counter : UInt64) : Block :=
  constants ++ key ++ #v[counter.toUInt32, (counter >>> 32).toUInt32, 0, 0]

/-- Block `counter` of the stream. -/
def block (key : Vector UInt32 8) (counter : UInt64) : Block :=
  let start := initialBlock key counter
  Vector.zipWith (· + ·) (Nat.repeat doubleRound 10 start) start

/-! ## Words and bytes -/

/-- The bytes of a word, the least significant first. -/
def wordBytes (w : UInt32) : List Byte :=
  [w.toUInt8, (w >>> 8).toUInt8, (w >>> 16).toUInt8, (w >>> 24).toUInt8]

/-- The word that begins at byte `i`, the least significant byte first. Bytes that are not there
count as zero. -/
def wordAt (bytes : List Byte) (i : Nat) : UInt32 :=
  let byte (k : Nat) : UInt32 := (bytes.getD (i + k) 0).toUInt32
  byte 0 ||| (byte 1 <<< 8) ||| (byte 2 <<< 16) ||| (byte 3 <<< 24)

/-- The words with the numbers `start` to `start + count - 1`. -/
def words (key : Vector UInt32 8) (start count : Nat) : List UInt32 :=
  let blocks := (List.range ((start % 16 + count + 15) / 16)).flatMap fun k =>
    (block key (UInt64.ofNat (start / 16 + k))).toList
  (blocks.drop (start % 16)).take count

/-- The stream of a key of 32 bytes. -/
def ofKey (bytes : List Byte) : Keystream :=
  ⟨Vector.ofFn fun i => wordAt bytes (4 * i), 0⟩

/-- Take the next `count` bytes. -/
def take (stream : Keystream) (count : Nat) : List Byte × Keystream :=
  let wordCount := (count + 3) / 4
  let bytes := (words stream.key stream.position wordCount).flatMap wordBytes
  (bytes.take count, ⟨stream.key, stream.position + wordCount⟩)

/-- The number of words after which every stream repeats: sixteen for each counter value. -/
def period : Nat :=
  16 * UInt64.size

end Keystream

end BitLinear
