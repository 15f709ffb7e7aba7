/-!
# Bytes as eight bits

A byte holds eight bits, the least significant one first. `Byte.testBit` reads one of them,
`Byte.setBit` writes one, and `Byte.ofBits` makes a byte from a list of bits. The measures are
the number of set bits (`Byte.weight`), their parity (`Byte.parity`) and the position of the
lowest one (`Byte.lowestSetBit`). The parity is looked up in a table with an entry for every byte,
which is made by taking the set bits away one after the other.
-/

namespace BitLinear

/-- Eight bits. -/
abbrev Byte := UInt8

namespace Byte

/-- Bit `i` of a byte, the least significant bit being bit 0; `false` past the eighth. -/
def testBit (b : Byte) (i : Nat) : Bool :=
  b.toNat.testBit i

/-- The byte with only bit `i` set, for `i < 8`. -/
def single (i : Nat) : Byte :=
  1 <<< UInt8.ofNat i

/-- Write bit `i`: a bit that already has the value is left alone, another is flipped. -/
def setBit (b : Byte) (i : Nat) (value : Bool) : Byte :=
  if b.testBit i = value then b else b ^^^ single i

/-- The byte whose bit `i` is entry `i` of the list, for a list of at most eight bits. -/
def ofBits : List Bool → Byte
  | [] => 0
  | bit :: bits => bit.toUInt8 ||| (ofBits bits <<< 1)

/-- The eight bits of a byte, the least significant first. -/
def toBits (b : Byte) : List Bool :=
  (List.range 8).map b.testBit

/-- The number of set bits. -/
def weight (b : Byte) : Nat :=
  b.toBits.count true

/-- A byte without its lowest set bit. -/
def clearLowest (b : Byte) : Byte :=
  b &&& (b - 1)

theorem toNat_clearLowest_lt {b : Byte} (h : b ≠ 0) : b.clearLowest.toNat < b.toNat := by
  have hpos : 0 < b.toNat := Nat.pos_of_ne_zero fun hzero => h (UInt8.toNat_inj.mp hzero)
  have hle : (1 : Byte) ≤ b := UInt8.le_iff_toNat_le.mpr hpos
  rw [clearLowest, UInt8.toNat_and, UInt8.toNat_sub_of_le _ _ hle]
  exact Nat.lt_of_le_of_lt Nat.and_le_right (Nat.sub_lt hpos Nat.one_pos)

/-- Take the set bits away, from the lowest on, and flip `odd` for each of them. -/
def flipForBits (odd bits : Byte) : Byte :=
  if h : bits = 0 then odd else flipForBits (odd ^^^ 1) bits.clearLowest
termination_by bits.toNat
decreasing_by exact toNat_clearLowest_lt h

/-- For every byte one if the number of its set bits is odd, and zero otherwise. -/
def parityTable : Vector Byte 256 :=
  Vector.ofFn fun value => flipForBits 0 (UInt8.ofNat value)

/-- The sum of the eight bits, from the table. -/
def parity (b : Byte) : Byte :=
  parityTable.get b.toFin

/-- The position of the lowest set bit. -/
def lowestSetBit (b : Byte) : Option Nat :=
  (List.range 8).find? b.testBit

/-! ## Bits of results -/

theorem testBit_eq_false (b : Byte) {i : Nat} (h : 8 ≤ i) : b.testBit i = false :=
  Nat.testBit_lt_two_pow (Nat.lt_of_lt_of_le b.toNat_lt (Nat.pow_le_pow_right (by decide) h))

@[simp] theorem testBit_zero (i : Nat) : (0 : Byte).testBit i = false := by
  simp [testBit]

@[simp] theorem testBit_xor (a b : Byte) (i : Nat) :
    (a ^^^ b).testBit i = (a.testBit i ^^ b.testBit i) := by
  simp [testBit]

@[simp] theorem testBit_and (a b : Byte) (i : Nat) :
    (a &&& b).testBit i = (a.testBit i && b.testBit i) := by
  simp [testBit]

@[simp] theorem testBit_or (a b : Byte) (i : Nat) :
    (a ||| b).testBit i = (a.testBit i || b.testBit i) := by
  simp [testBit]

/-- Bytes with the same eight bits are equal. -/
theorem ext_testBit {a b : Byte} (h : ∀ i < 8, a.testBit i = b.testBit i) : a = b := by
  apply UInt8.toNat_inj.mp
  apply Nat.eq_of_testBit_eq
  intro i
  by_cases hi : i < 8
  · exact h i hi
  · have ha := testBit_eq_false a (Nat.le_of_not_lt hi)
    have hb := testBit_eq_false b (Nat.le_of_not_lt hi)
    unfold testBit at ha hb
    rw [ha, hb]

theorem testBit_single {i j : Nat} (hi : i < 8) (hj : j < 8) :
    (single i).testBit j = decide (j = i) := by
  have h : ∀ i j : Fin 8, (single i).testBit j = decide (j.val = i.val) := by decide
  exact h ⟨i, hi⟩ ⟨j, hj⟩

/-- Writing a bit changes that bit alone. -/
theorem testBit_setBit {b : Byte} {i j : Nat} {value : Bool} (hi : i < 8) (hj : j < 8) :
    (b.setBit i value).testBit j = if j = i then value else b.testBit j := by
  unfold setBit
  split
  · split <;> simp_all
  · rw [testBit_xor, testBit_single hi hj]
    by_cases h : j = i
    · subst h
      cases hb : b.testBit j <;> cases value <;> simp_all
    · simp [h]

theorem testBit_shiftLeft_one (b : Byte) {i : Nat} (hi : i < 8) :
    (b <<< 1).testBit i = (decide (1 ≤ i) && b.testBit (i - 1)) := by
  have h : (b <<< 1).toNat = b.toNat <<< 1 % 2 ^ 8 := by simp
  rw [testBit, h, Nat.testBit_mod_two_pow, Nat.testBit_shiftLeft]
  simp [hi, testBit]

/-- The bits of a byte made from a list are the entries of the list. -/
theorem testBit_ofBits : ∀ (bits : List Bool) {i : Nat}, i < 8 →
    (ofBits bits).testBit i = bits.getD i false
  | [], i, _ => by simp [ofBits]
  | bit :: bits, 0, h => by
    rw [ofBits, testBit_or, testBit_shiftLeft_one _ h]
    cases bit <;> simp [testBit, Bool.toUInt8]
  | bit :: bits, i + 1, h => by
    have ih := testBit_ofBits bits (i := i) (by omega)
    have hb : testBit bit.toUInt8 (i + 1) = false := by
      cases bit <;> simp [testBit, Bool.toUInt8, Nat.testBit_succ]
    rw [ofBits, testBit_or, testBit_shiftLeft_one _ h, hb]
    simpa using ih

end Byte

end BitLinear
