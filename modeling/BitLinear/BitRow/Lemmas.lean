import BitLinear.BitRow.Basic

/-!
# The bits of rows

What each operation on rows does to the view `testBit`, and when it succeeds. Rows of one length
with the same bits are equal (`ext_testBit`), reading inside a row is the view (`getBit_eq_ok`),
sums and products act bit by bit, and packing a list of bits keeps its entries.
-/

namespace BitLinear

theorem checkAligned_eq_ok {bits : Nat} (h : bits % 8 = 0) : checkAligned bits = .ok () :=
  if_pos h

theorem checkAligned_eq_error {bits : Nat} (h : bits % 8 ≠ 0) :
    checkAligned bits = .error (.unaligned bits) :=
  if_neg h

namespace BitRow

theorem length_mod_eight (r : BitRow) : r.length % 8 = 0 :=
  Nat.mul_mod_right 8 _

theorem testBit_eq_false (r : BitRow) {i : Nat} (h : r.length ≤ i) : r.testBit i = false := by
  have hi : r.bytes.size ≤ i / 8 := by unfold length at h; omega
  simp [testBit, hi]

theorem lt_length_of_testBit {r : BitRow} {i : Nat} (h : r.testBit i = true) : i < r.length := by
  rcases Nat.lt_or_ge i r.length with hlt | hge
  · exact hlt
  · rw [testBit_eq_false r hge] at h
    exact absurd h Bool.false_ne_true

/-- Rows of one length with the same bits are equal. -/
theorem ext_testBit {a b : BitRow} (hl : a.length = b.length)
    (h : ∀ i < a.length, a.testBit i = b.testBit i) : a = b := by
  have hlen : a.bytes.size = b.bytes.size := by unfold length at hl; omega
  cases a with | mk as => cases b with | mk bs =>
  congr 1
  apply Array.ext hlen
  intro k hk hk'
  apply Byte.ext_testBit
  intro i hi
  have hbit := h (8 * k + i) (by unfold length; simp_all; omega)
  simp only [testBit, show (8 * k + i) / 8 = k by omega,
    show (8 * k + i) % 8 = i by omega] at hbit
  simpa [hk, hk'] using hbit

/-! ## Single bits -/

/-- Inside the row, reading is the view. -/
theorem getBit_eq_ok {r : BitRow} {i : Nat} (h : i < r.length) :
    r.getBit i = .ok (r.testBit i) := by
  have hi : i / 8 < r.bytes.size := by unfold length at h; omega
  simp [getBit, testBit, hi]

/-- Past the end, reading is refused. -/
theorem getBit_eq_error {r : BitRow} {i : Nat} (h : r.length ≤ i) :
    r.getBit i = .error (.outOfBounds r.bytes.size (i / 8)) := by
  have hi : r.bytes.size ≤ i / 8 := by unfold length at h; omega
  simp [getBit, hi]

/-- Past the end, writing is refused. -/
theorem setBit_eq_error {r : BitRow} {i : Nat} (value : Bool) (h : r.length ≤ i) :
    r.setBit i value = .error (.outOfBounds r.bytes.size (i / 8)) := by
  have hi : r.bytes.size ≤ i / 8 := by unfold length at h; omega
  simp [setBit, hi]

/-- Inside the row, writing changes one bit and keeps the length. -/
theorem setBit_eq_ok {r : BitRow} {i : Nat} (value : Bool) (h : i < r.length) :
    ∃ s, r.setBit i value = .ok s ∧ s.length = r.length ∧
      ∀ j < r.length, s.testBit j = if j = i then value else r.testBit j := by
  have hi : i / 8 < r.bytes.size := by unfold length at h; omega
  have hget : r.bytes[i / 8]? = some (r.bytes.getD (i / 8) 0) := by simp [hi]
  refine ⟨_, by rw [setBit, hget], by simp [length], fun j hj => ?_⟩
  by_cases hk : j / 8 = i / 8
  · have hiff : (j % 8 = i % 8) ↔ j = i := by omega
    have hi8 := Nat.mod_lt i (by decide : 8 > 0)
    have hj8 := Nat.mod_lt j (by decide : 8 > 0)
    simp [testBit, hk, hi, Byte.testBit_setBit hi8 hj8, hiff]
  · have hne : j ≠ i := by rintro rfl; exact hk rfl
    simp [testBit, hne, Ne.symm hk]

/-! ## Sums, products and packing -/

theorem length_sum {a b : BitRow} (h : a.length = b.length) : (a.sum b).length = a.length := by
  unfold length at h
  simp only [length, sum, Array.size_zipWith]
  omega

theorem length_product {a b : BitRow} (h : a.length = b.length) :
    (a.product b).length = a.length := by
  unfold length at h
  simp only [length, product, Array.size_zipWith]
  omega

/-- Arrays of one size are combined byte by byte. -/
theorem getD_zipWith {f : Byte → Byte → Byte} (hf : f 0 0 = 0) {as bs : Array Byte}
    (h : as.size = bs.size) (k : Nat) :
    (Array.zipWith f as bs).getD k 0 = f (as.getD k 0) (bs.getD k 0) := by
  rw [Array.getD_eq_getD_getElem?, Array.getElem?_zipWith]
  by_cases hk : k < as.size
  · simp [hk, h ▸ hk]
  · have hbs : bs.size ≤ k := by omega
    simp [Nat.le_of_not_lt hk, hbs, hf]

/-- A sum acts bit by bit. -/
theorem testBit_sum {a b : BitRow} (h : a.length = b.length) (i : Nat) :
    (a.sum b).testBit i = (a.testBit i ^^ b.testBit i) := by
  have hlen : a.bytes.size = b.bytes.size := by unfold length at h; omega
  rw [testBit, sum, getD_zipWith rfl hlen, Byte.testBit_xor]
  rfl

/-- A product acts bit by bit. -/
theorem testBit_product {a b : BitRow} (h : a.length = b.length) (i : Nat) :
    (a.product b).testBit i = (a.testBit i && b.testBit i) := by
  have hlen : a.bytes.size = b.bytes.size := by unfold length at h; omega
  rw [testBit, product, getD_zipWith rfl hlen, Byte.testBit_and]
  rfl

theorem add_eq_ok {a b : BitRow} (h : a.length = b.length) : a.add b = .ok (a.sum b) := by
  rw [add, checkSameLength, if_pos h]
  rfl

theorem mul_eq_ok {a b : BitRow} (h : a.length = b.length) : a.mul b = .ok (a.product b) := by
  rw [mul, checkSameLength, if_pos h]
  rfl

theorem dot_eq_ok {a b : BitRow} (h : a.length = b.length) :
    a.dot b = .ok (a.product b).parity := by
  rw [dot, checkSameLength, if_pos h]
  rfl

/-- Pack bits, eight to a byte. What does not fill a byte is left out. -/
def pack (bits : List Bool) : BitRow :=
  ⟨Array.ofFn fun k : Fin (bits.length / 8) => Byte.ofBits ((bits.drop (8 * k)).take 8)⟩

theorem length_pack {bits : List Bool} (h : bits.length % 8 = 0) :
    (pack bits).length = bits.length := by
  simp only [length, pack, Array.size_ofFn]
  omega

/-- Packing keeps the bits. -/
theorem testBit_pack {bits : List Bool} (h : bits.length % 8 = 0) (i : Nat) :
    (pack bits).testBit i = bits.getD i false := by
  by_cases hi : i < bits.length
  · have hk : i / 8 < bits.length / 8 := by omega
    have h8 : i % 8 < 8 := by omega
    have hbyte : (pack bits).bytes.getD (i / 8) 0 =
        Byte.ofBits ((bits.drop (8 * (i / 8))).take 8) := by
      simp [pack, hk]
    simp only [testBit, hbyte, Byte.testBit_ofBits _ h8, List.getD_eq_getElem?_getD,
      List.getElem?_take, h8, if_true, List.getElem?_drop]
    rw [show 8 * (i / 8) + i % 8 = i by omega]
  · have hk : bits.length / 8 ≤ i / 8 := by omega
    have hlen : bits.length ≤ i := by omega
    simp [testBit, pack, hk, hlen]

/-- Writing the set bits of a list that fits into the row sets those and leaves the others. -/
theorem foldlM_setBit_eq_ok : ∀ (bits : List Bool) (start : Nat) (r : BitRow),
    start + bits.length ≤ r.length →
    ∃ s, (bits.zipIdx start).foldlM
        (fun row (bit, i) => if bit then row.setBit i true else return row) r = .ok s ∧
      s.length = r.length ∧ ∀ j < r.length, s.testBit j =
        (r.testBit j || (decide (start ≤ j) && bits.getD (j - start) false))
  | [], start, r, _ => ⟨r, rfl, rfl, fun j _ => by simp⟩
  | bit :: bits, start, r, h => by
    have hstart : start < r.length := by rw [List.length_cons] at h; omega
    have hwrite : ∃ t, (if bit then r.setBit start true else return r) = .ok t ∧
        t.length = r.length ∧
        ∀ j < r.length, t.testBit j = (r.testBit j || (decide (j = start) && bit)) := by
      cases bit with
      | false => exact ⟨r, rfl, rfl, fun j _ => by simp⟩
      | true =>
        obtain ⟨t, ht, hlen, hbit⟩ := setBit_eq_ok true hstart
        refine ⟨t, ht, hlen, fun j hj => ?_⟩
        rw [hbit j hj]
        by_cases hj : j = start <;> simp [hj]
    obtain ⟨t, ht, htlen, htbit⟩ := hwrite
    obtain ⟨s, hs, hslen, hsbit⟩ := foldlM_setBit_eq_ok bits (start + 1) t
      (by rw [List.length_cons] at h; omega)
    refine ⟨s, ?_, hslen.trans htlen, fun j hj => ?_⟩
    · rw [List.zipIdx_cons, List.foldlM_cons]
      show ((if bit then r.setBit start true else return r) >>= _) = _
      rw [ht]
      exact hs
    · rw [hsbit j (htlen ▸ hj), htbit j hj]
      obtain hlt | rfl | hgt := Nat.lt_trichotomy j start
      · simp [show ¬ start + 1 ≤ j by omega, show ¬ start ≤ j by omega, Nat.ne_of_lt hlt]
      · simp [show ¬ j + 1 ≤ j by omega]
      · rw [show j - start = j - (start + 1) + 1 by omega, List.getD_cons_succ]
        simp [show start + 1 ≤ j by omega, Nat.le_of_lt hgt, (Nat.ne_of_lt hgt).symm]

theorem ofBits_eq_ok {bits : List Bool} (h : bits.length % 8 = 0) :
    ofBits bits = .ok (pack bits) := by
  have hzero : zero bits.length = .ok ⟨Array.replicate (bits.length / 8) 0⟩ := by
    rw [zero, checkAligned_eq_ok h]
    rfl
  have hlen : (⟨Array.replicate (bits.length / 8) 0⟩ : BitRow).length = bits.length := by
    simp only [length, Array.size_replicate]
    omega
  obtain ⟨s, hs, hslen, hsbit⟩ := foldlM_setBit_eq_ok bits 0 _ (by rw [hlen]; omega)
  have hpack : s = pack bits := by
    refine ext_testBit (by rw [hslen, hlen, length_pack h]) fun j hj => ?_
    rw [hsbit j (hslen ▸ hj), testBit_pack h]
    by_cases hbyte : j / 8 < bits.length / 8 <;> simp [testBit, hbyte]
  rw [ofBits, hzero, ← hpack]
  exact hs

end BitRow

end BitLinear
