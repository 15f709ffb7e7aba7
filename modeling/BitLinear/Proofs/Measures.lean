import BitLinear.BitRow.Lemmas
import Mathlib.Data.List.Find

/-!
# What the measures of a row say of its bits

`isZero` holds when no bit is set (`isZero_iff`), and `firstSetBit` is the first position of the
row that is set (`firstSetBit_eq_find?`), found byte by byte. The bits of a row are those of its
bytes one after the other (`map_testBit_range`), so `weight` counts the positions that are set
(`weight_eq_countP`). An entry of the parity table flips once for each set bit of its byte
(`Byte.parity_eq_weight`), and `parity` says whether the number of all set bits is odd
(`parity_eq_weight`).
-/

namespace BitLinear

namespace Byte

/-- Every step of the parity takes one set bit away. -/
theorem weight_clearLowest {b : Byte} (h : b ≠ 0) : b.clearLowest.weight + 1 = b.weight := by
  have hall : ∀ k : Fin 256, UInt8.ofNat k ≠ 0 →
      Byte.weight (Byte.clearLowest (UInt8.ofNat k)) + 1 = Byte.weight (UInt8.ofNat k) := by
    decide +kernel
  have hb : UInt8.ofNat b.toNat = b := UInt8.ofNat_toNat
  have hstep := hall ⟨b.toNat, b.toNat_lt⟩
  rw [hb] at hstep
  exact hstep h

theorem xor_mod_two (k l : Nat) :
    (UInt8.ofNat (k % 2) ^^^ UInt8.ofNat (l % 2) : Byte) = UInt8.ofNat ((k + l) % 2) := by
  rcases Nat.mod_two_eq_zero_or_one k with hk | hk <;>
    rcases Nat.mod_two_eq_zero_or_one l with hl | hl <;> rw [Nat.add_mod, hk, hl] <;> rfl

theorem flipForBits_eq (k : Nat) (b : Byte) :
    flipForBits (UInt8.ofNat (k % 2)) b = UInt8.ofNat ((k + b.weight) % 2) := by
  rw [flipForBits]
  split_ifs with h
  · rw [h]
    rfl
  · have hlt := toNat_clearLowest_lt h
    have hflip : UInt8.ofNat (k % 2) ^^^ 1 = UInt8.ofNat ((k + 1) % 2) := xor_mod_two k 1
    rw [hflip, flipForBits_eq (k + 1) b.clearLowest, ← weight_clearLowest h]
    congr 2
    omega
termination_by b.toNat

/-- The table says whether the number of set bits is odd. -/
theorem parity_eq_weight (b : Byte) : b.parity = UInt8.ofNat (b.weight % 2) := by
  have hindex : (b.toFin : Nat) = b.toNat := rfl
  rw [parity, parityTable, Vector.get, Vector.getElem_toArray, Vector.getElem_ofFn, Fin.val_cast,
    hindex, UInt8.ofNat_toNat, ← Nat.zero_add b.weight]
  exact flipForBits_eq 0 b

end Byte

namespace BitRow

/-- The bytes of a row hold its bits. -/
theorem testBit_eq_toBytes (r : BitRow) (i : Nat) :
    r.testBit i = (r.toBytes.getD (i / 8) 0).testBit (i % 8) := by
  simp [testBit, toBytes]

/-! ## The first byte and the others -/

theorem range_eight_mul_succ (count : Nat) :
    List.range (8 * (count + 1)) = List.range 8 ++ (List.range (8 * count)).map (8 + ·) := by
  rw [Nat.mul_succ, Nat.add_comm, List.range_add]

theorem testBit_cons_of_lt (b : Byte) (bytes : List Byte) {i : Nat} (h : i < 8) :
    ((b :: bytes).getD (i / 8) 0).testBit (i % 8) = b.testBit i := by
  rw [Nat.div_eq_of_lt h, Nat.mod_eq_of_lt h, List.getD_cons_zero]

theorem testBit_cons_add (b : Byte) (bytes : List Byte) (i : Nat) :
    ((b :: bytes).getD ((8 + i) / 8) 0).testBit ((8 + i) % 8) =
      (bytes.getD (i / 8) 0).testBit (i % 8) := by
  simp [Nat.add_div_left, Nat.add_mod_left]

/-! ## The zero test -/

theorem isZero_iff {r : BitRow} : r.isZero = true ↔ ∀ i, r.testBit i = false := by
  rw [isZero, Array.all_eq_true]
  refine ⟨?_, ?_⟩
  · intro h i
    by_cases hi : i / 8 < r.bytes.size
    · have hb : r.bytes[i / 8] = 0 := by simpa using h (i / 8) hi
      simp [testBit, hi, hb]
    · simp [testBit, hi]
  · intro h k hk
    have hb : r.bytes[k] = 0 := by
      apply Byte.ext_testBit
      intro m hm
      have hbit := h (8 * k + m)
      simp only [testBit, show (8 * k + m) / 8 = k by omega,
        show (8 * k + m) % 8 = m by omega] at hbit
      simpa [hk] using hbit
    simpa using hb

theorem isZero_iff_forall_lt {r : BitRow} :
    r.isZero = true ↔ ∀ i < r.length, r.testBit i = false := by
  rw [isZero_iff]
  refine ⟨fun h i _ => h i, fun h i => ?_⟩
  rcases Nat.lt_or_ge i r.length with hi | hi
  · exact h i hi
  · exact testBit_eq_false r hi

/-! ## The lowest set bit -/

theorem lowestSetBitFrom_eq_find? :
    ∀ (bytes : List Byte) (start : Nat), lowestSetBitFrom start bytes =
      ((List.range (8 * bytes.length)).find? fun i =>
        (bytes.getD (i / 8) 0).testBit (i % 8)).map (start + ·)
  | [], _ => rfl
  | b :: bytes, start => by
    have hhead : (List.range 8).find? (fun i => ((b :: bytes).getD (i / 8) 0).testBit (i % 8)) =
        b.lowestSetBit := by
      rw [Byte.lowestSetBit]
      exact List.find?_congr fun i hi => testBit_cons_of_lt b bytes (List.mem_range.mp hi)
    have htail : ((List.range (8 * bytes.length)).find?
          ((fun i => ((b :: bytes).getD (i / 8) 0).testBit (i % 8)) ∘ (8 + ·))) =
        (List.range (8 * bytes.length)).find? fun i => (bytes.getD (i / 8) 0).testBit (i % 8) :=
      List.find?_congr fun i _ => testBit_cons_add b bytes i
    rw [List.length_cons, range_eight_mul_succ, List.find?_append, hhead, List.find?_map, htail,
      lowestSetBitFrom, lowestSetBitFrom_eq_find? bytes (start + 8)]
    cases b.lowestSetBit
    · simp [Function.comp_def, Nat.add_assoc]
    · rfl

theorem firstSetBit_eq_find? (r : BitRow) :
    r.firstSetBit = (List.range r.length).find? r.testBit := by
  have hlen : r.toBytes.length = r.bytes.size := Array.length_toList
  rw [firstSetBit, lowestSetBitFrom_eq_find?, hlen, length]
  simp only [← testBit_eq_toBytes, Nat.zero_add, Option.map_id']

theorem firstSetBit_eq_some_iff {r : BitRow} {k : Nat} :
    r.firstSetBit = some k ↔ r.testBit k = true ∧ ∀ j < k, r.testBit j = false := by
  rw [firstSetBit_eq_find?, List.find?_range_eq_some]
  refine ⟨?_, ?_⟩
  · rintro ⟨hk, -, hlow⟩
    exact ⟨hk, fun j hj => by simpa using hlow j hj⟩
  · rintro ⟨hk, hlow⟩
    exact ⟨hk, List.mem_range.mpr (lt_length_of_testBit hk), fun j hj => by simp [hlow j hj]⟩

theorem firstSetBit_eq_none_iff {r : BitRow} : r.firstSetBit = none ↔ r.isZero = true := by
  rw [firstSetBit_eq_find?, List.find?_range_eq_none, isZero_iff_forall_lt]
  simp

/-! ## The number of set bits -/

/-- The bits of some bytes are those of each byte, one byte after the other. -/
theorem map_range_eq_flatMap : ∀ bytes : List Byte,
    (List.range (8 * bytes.length)).map (fun i => (bytes.getD (i / 8) 0).testBit (i % 8)) =
      bytes.flatMap Byte.toBits
  | [] => rfl
  | b :: bytes => by
    have hhead : (List.range 8).map (fun i => ((b :: bytes).getD (i / 8) 0).testBit (i % 8)) =
        b.toBits :=
      List.map_congr_left fun i hi => testBit_cons_of_lt b bytes (List.mem_range.mp hi)
    have htail : (List.range (8 * bytes.length)).map
          ((fun i => ((b :: bytes).getD (i / 8) 0).testBit (i % 8)) ∘ (8 + ·)) =
        bytes.flatMap Byte.toBits := by
      rw [← map_range_eq_flatMap bytes]
      exact List.map_congr_left fun i _ => testBit_cons_add b bytes i
    rw [List.length_cons, range_eight_mul_succ, List.map_append, List.map_map, hhead, htail,
      List.flatMap_cons]

theorem map_testBit_range (r : BitRow) :
    (List.range r.length).map r.testBit = r.toBytes.flatMap Byte.toBits := by
  have hlen : r.toBytes.length = r.bytes.size := Array.length_toList
  rw [← map_range_eq_flatMap, hlen]
  exact List.map_congr_left fun i _ => testBit_eq_toBytes r i

theorem count_flatMap_toBits : ∀ bytes : List Byte, (bytes.flatMap Byte.toBits).count true =
    bytes.foldr (fun b count => b.weight + count) 0
  | [] => rfl
  | b :: bytes => by
    rw [List.flatMap_cons, List.count_append, count_flatMap_toBits bytes]
    rfl

/-- The weight is the number of positions that are set. -/
theorem weight_eq_countP (r : BitRow) : r.weight = (List.range r.length).countP r.testBit := by
  have hcount : r.weight = (r.toBytes.flatMap Byte.toBits).count true := by
    rw [count_flatMap_toBits, weight, ← Array.foldr_toList]
    rfl
  rw [hcount, ← map_testBit_range, List.count_eq_countP, List.countP_map]
  simp [Function.comp_def]

/-! ## Parity -/

theorem foldl_parity : ∀ (bytes : List Byte) (k : Nat),
    bytes.foldl (fun acc b => acc ^^^ b.parity) (UInt8.ofNat (k % 2)) =
      UInt8.ofNat ((k + bytes.foldr (fun b count => b.weight + count) 0) % 2)
  | [], _ => rfl
  | b :: bytes, k => by
    rw [List.foldl_cons, Byte.parity_eq_weight, Byte.xor_mod_two, foldl_parity bytes,
      List.foldr_cons, Nat.add_assoc]

/-- The parity says whether the number of set bits is odd. -/
theorem parity_eq_weight (r : BitRow) : r.parity = decide (r.weight % 2 = 1) := by
  have hfold : r.bytes.foldl (fun acc b => acc ^^^ b.parity) 0 = UInt8.ofNat (r.weight % 2) := by
    rw [← Array.foldl_toList, weight, ← Array.foldr_toList,
      ← Nat.zero_add (List.foldr _ _ _)]
    exact foldl_parity r.bytes.toList 0
  rw [parity, hfold]
  rcases Nat.mod_two_eq_zero_or_one r.weight with h | h <;> rw [h] <;> rfl

end BitRow

end BitLinear
