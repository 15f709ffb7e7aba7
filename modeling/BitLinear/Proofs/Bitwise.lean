import BitLinear.Proofs.Checked
import BitLinear.Proofs.Measures

/-!
# Rows bit by bit

A row packs its bits into bytes, and its operations work on these : they combine whole bytes, flip
one bit of one byte, look for the first byte that is not zero, and look the parity of each byte up
for an inner product. `ActsBitwise n a b` says without the bytes what the operations do to rows of `n`
bits. Reading a bit is the view `testBit`; sums and products are taken at each position; a write
changes one position; the measures count the positions that are set and find the lowest of them.
The main statement is that any two rows of one length act so.
-/

namespace BitLinear.BitRow

/-- What the operations on rows of `n` bits do to the bits at the single positions. -/
structure ActsBitwise (n : Nat) (a b : BitRow) : Prop where
  /-- The bit that is read is that of the view, in every row of this length. -/
  getBit : ∀ row : BitRow, row.length = n → ∀ i < n, row.getBit i = .ok (row.testBit i)
  eq_iff : a = b ↔ ∀ i < n, a.testBit i = b.testBit i
  add : ∃ s, a.add b = .ok s ∧ s.length = n ∧ ∀ i < n, s.testBit i = (a.testBit i ^^ b.testBit i)
  mul : ∃ p, a.mul b = .ok p ∧ p.length = n ∧ ∀ i < n, p.testBit i = (a.testBit i && b.testBit i)
  /-- A write changes the bit at its position and no other. -/
  setBit : ∀ i < n, ∀ value, ∃ s, a.setBit i value = .ok s ∧ s.length = n ∧
    ∀ j < n, s.testBit j = if j = i then value else a.testBit j
  unit : ∀ i < n, ∃ u, BitRow.unit n i = .ok u ∧ u.length = n ∧
    ∀ j < n, u.testBit j = decide (j = i)
  weight : a.weight = (List.range n).countP a.testBit
  isZero : a.isZero = true ↔ ∀ i < n, a.testBit i = false
  firstSetBit_eq_some : ∀ k, a.firstSetBit = some k ↔
    k < n ∧ a.testBit k = true ∧ ∀ j < k, a.testBit j = false
  firstSetBit_eq_none : a.firstSetBit = none ↔ ∀ i < n, a.testBit i = false
  /-- The inner product says whether an odd number of positions is set in both rows. -/
  dot : a.dot b =
    .ok (decide ((List.range n).countP (fun i => a.testBit i && b.testBit i) % 2 = 1))

variable {a b : BitRow}

/-- The positions that are set in both rows are those that are set in the product. -/
theorem weight_product (h : a.length = b.length) : (a.product b).weight =
    (List.range a.length).countP fun i => a.testBit i && b.testBit i := by
  rw [weight_eq_countP, length_product h]
  exact List.countP_congr fun i _ => by rw [testBit_product h]

/-- Rows of one length act bit by bit. -/
theorem actsBitwise (h : a.length = b.length) : ActsBitwise a.length a b where
  getBit row hrow i hi := getBit_eq_ok (hi.trans_eq hrow.symm)
  eq_iff := by
    refine ⟨?_, ext_testBit h⟩
    rintro rfl i -
    rfl
  add := ⟨a.sum b, add_eq_ok h, length_sum h, fun i _ => testBit_sum h i⟩
  mul := ⟨a.product b, mul_eq_ok h, length_product h, fun i _ => testBit_product h i⟩
  setBit i hi value := setBit_eq_ok value hi
  unit i hi := by
    have hn := a.length_mod_eight
    exact ⟨unitRow a.length i, unit_eq_ok hn hi, length_unitRow hn i, fun j hj =>
      testBit_unitRow hn hj⟩
  weight := weight_eq_countP a
  isZero := isZero_iff_forall_lt
  firstSetBit_eq_some k := by
    rw [firstSetBit_eq_some_iff]
    refine ⟨fun ⟨hk, hlow⟩ => ⟨lt_length_of_testBit hk, hk, hlow⟩, fun ⟨_, hk, hlow⟩ => ⟨hk, hlow⟩⟩
  firstSetBit_eq_none := firstSetBit_eq_none_iff.trans isZero_iff_forall_lt
  dot := by rw [dot_eq_ok h, parity_eq_weight, weight_product h]

/-- The lowest bit of three bytes is in the second, and two positions are set in both rows. -/
theorem actsBitwise_twentyFour : let a : BitRow := ⟨#[0, 20, 128]⟩
    let b : BitRow := ⟨#[255, 4, 129]⟩
    a.length = b.length ∧ a.firstSetBit = some 10 ∧ a.weight = 3 ∧ a.dot b = .ok false ∧
      ∃ s, a.setBit 15 true = .ok s ∧ s.length = 24 ∧
        ∀ j < 24, s.testBit j = if j = 15 then true else a.testBit j := by
  intro a b
  have hlen : a.length = b.length := rfl
  have hacts := actsBitwise hlen
  refine ⟨hlen, ?_, ?_, ?_, hacts.setBit 15 (by decide) true⟩
  · exact (hacts.firstSetBit_eq_some 10).mpr ⟨by decide, by decide, by decide⟩
  · exact hacts.weight.trans (by decide)
  · exact hacts.dot.trans (by decide)

end BitLinear.BitRow
