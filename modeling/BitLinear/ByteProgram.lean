import BitLinear.Byte

/-!
# Byte programs

A small language of instructions on a buffer of bytes, in which maps on packed bits are written
down. Positions count modulo the size of the buffer, so every program runs on every buffer, and
bytes are taken modulo 256. The instruction `count` sees how often the program has run before; the
other instructions depend on the buffer alone.
-/

namespace BitLinear

/-- An instruction that changes a buffer of bytes in place. -/
inductive ByteInstruction where
  /-- Rotate the buffer to the left. -/
  | rotateLeft (amount : Nat)
  /-- Reverse the order of the bytes. -/
  | reverse
  /-- Exchange two bytes. -/
  | swap (i j : Nat)
  /-- Add byte `j` to byte `i`. -/
  | xor (i j : Nat)
  /-- Keep the bits of byte `i` that are set in `value`. -/
  | and (i value : Nat)
  /-- Overwrite byte `i`. -/
  | set (i value : Nat)
  /-- Flip every bit of byte `i`. -/
  | not (i : Nat)
  /-- Rotate byte `i` to the left. -/
  | rotateByte (i amount : Nat)
  /-- Double byte `i` in the field of 256 elements with the polynomial `0x11b`. -/
  | double (i : Nat)
  /-- Add the number of earlier runs to byte `i`. -/
  | count (i : Nat)
deriving DecidableEq, Repr

namespace Byte

/-- Rotate the bits of a byte to the left by `k` places. -/
def rotateLeft (b : Byte) (k : Nat) : Byte :=
  UInt8.ofNat (b.toNat <<< (k % 8) ||| b.toNat >>> (8 - k % 8))

/-- Double a byte in the field of 256 elements with the polynomial `0x11b`. -/
def double (b : Byte) : Byte :=
  if b.testBit 7 then (b <<< 1) ^^^ 0x1b else b <<< 1

end Byte

namespace ByteInstruction

/-- Change the byte at a position that counts modulo the size of the buffer. -/
def modifyAt (buffer : List Byte) (i : Nat) (f : Byte → Byte) : List Byte :=
  buffer.modify (i % buffer.length) f

/-- The byte at a position that counts modulo the size of the buffer. -/
def byteAt (buffer : List Byte) (i : Nat) : Byte :=
  buffer.getD (i % buffer.length) 0

/-- What an instruction makes of a buffer after `runs` earlier runs of the program. -/
def apply (runs : Nat) (buffer : List Byte) : ByteInstruction → List Byte
  | .rotateLeft k => buffer.rotateLeft k
  | .reverse => buffer.reverse
  | .swap i j =>
    let a := byteAt buffer i
    let b := byteAt buffer j
    modifyAt (modifyAt buffer i fun _ => b) j fun _ => a
  | .xor i j => modifyAt buffer i (· ^^^ byteAt buffer j)
  | .and i value => modifyAt buffer i (· &&& UInt8.ofNat value)
  | .set i value => modifyAt buffer i fun _ => UInt8.ofNat value
  | .not i => modifyAt buffer i (· ^^^ 0xff)
  | .rotateByte i k => modifyAt buffer i (Byte.rotateLeft · k)
  | .double i => modifyAt buffer i Byte.double
  | .count i => modifyAt buffer i (· ^^^ UInt8.ofNat runs)

end ByteInstruction

/-- Instructions that are run in order. -/
abbrev ByteProgram := List ByteInstruction

/-- Run a program. The state is the number of runs so far. -/
def ByteProgram.run (program : ByteProgram) (buffer : List Byte) : StateM Nat (List Byte) :=
  fun runs => (program.foldl (ByteInstruction.apply runs) buffer, runs + 1)

end BitLinear
