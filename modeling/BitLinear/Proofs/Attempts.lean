import BitLinear.Proofs.Rejection
import BitLinear.Proofs.Selection

/-!
# Rejection on a script

A script is read as square matrices, one after the other (`matrixAt`). `AllSingular n bytes count`
says that it holds so many and that none of them has an inverse. A draw takes the first matrix whole
(`runOn_uniform_script`) or all rows there are (`runOn_uniform_short`), so the singular matrices at
the front are dropped one by one (`AllSingular.runOn_firstInvertible`).

`Samples` has one constructor for each of the three ways in which rejection ends : at the first
matrix with an inverse, after as many singular ones as the limit allows, or where the script ends.
One of them applies to every script (`exists_samples`), and the last statement is that the run ends
as that one says.
-/

namespace BitLinear

namespace BitRow

variable {n : ℕ} {bytes : List Byte}

/-! ## Blocks -/

theorem length_blocks (n : ℕ) (bytes : List Byte) :
    (blocks n bytes).length = bytes.length / (n / 8) := by
  rw [blocks, List.length_map, List.length_range]

/-- Bytes that are enough for so many rows hold so many blocks. -/
theorem le_length_blocks (hn : n % 8 = 0) (hpos : 0 < n) {count : ℕ}
    (h : count * (n / 8) ≤ bytes.length) : count ≤ (blocks n bytes).length := by
  rw [length_blocks]
  exact (Nat.le_div_iff_mul_le (by omega)).mpr h

/-- Without the bytes of some blocks the blocks behind them are left. -/
theorem blocks_drop (n count : ℕ) (bytes : List Byte) :
    blocks n (bytes.drop (count * (n / 8))) = (blocks n bytes).drop count := by
  have hlen : (bytes.drop (count * (n / 8))).length / (n / 8) =
      bytes.length / (n / 8) - count := by
    rw [List.length_drop, Nat.mul_comm, Nat.sub_mul_div]
  refine List.ext_getElem (by rw [List.length_drop, length_blocks, length_blocks, hlen])
    fun k _ _ => ?_
  simp only [blocks, List.getElem_map, List.getElem_range, List.getElem_drop, List.drop_drop,
    Nat.add_mul]

theorem length_of_mem_blocks (hn : n % 8 = 0) : ∀ row ∈ blocks n bytes, row.length = n := by
  intro row hrow
  obtain ⟨k, hk, rfl⟩ := List.mem_map.mp hrow
  have hlt := List.mem_range.mp hk
  have hwidth : 0 < n / 8 := by
    refine Nat.pos_of_ne_zero fun hzero => ?_
    simp [hzero] at hlt
  have hle := (Nat.le_div_iff_mul_le hwidth).mp hlt
  rw [Nat.succ_mul] at hle
  refine length_ofBytes hn ?_
  rw [List.length_take, List.length_drop]
  omega

/-- A script is made of its blocks and of bytes behind them. -/
theorem eq_bytesOf_take_blocks (hn : n % 8 = 0) {count : ℕ}
    (h : count * (n / 8) ≤ bytes.length) :
    bytes = bytesOf ((blocks n bytes).take count) ++ bytes.drop (count * (n / 8)) := by
  rcases Nat.eq_zero_or_pos n with rfl | hpos
  · simp [blocks]
  · obtain ⟨rows, tail, hrows, htail, rfl⟩ := exists_eq_bytesOf_append hn hpos bytes
    have hcount := le_length_blocks hn hpos h
    rw [blocks_bytesOf_append hn hpos hrows htail] at hcount ⊢
    have hfirst : (bytesOf (rows.take count)).length = count * (n / 8) := by
      rw [length_bytesOf fun row hrow => hrows row (List.mem_of_mem_take hrow), List.length_take,
        Nat.min_eq_left hcount]
    have hsplit : bytesOf rows ++ tail =
        bytesOf (rows.take count) ++ (bytesOf (rows.drop count) ++ tail) := by
      rw [← List.append_assoc, ← bytesOf_append, List.take_append_drop]
    rw [hsplit, ← hfirst, List.drop_left]

end BitRow

namespace BitMatrix

variable {n maxAttempts attempts count k : ℕ} {bytes : List Byte} {m b : BitMatrix}
  {result : Except Error (BitMatrix × BitMatrix)}

/-! ## The matrices of a script -/

/-- The matrix in place `k` of a script that is read as square matrices of `n` rows. -/
def matrixAt (n : ℕ) (bytes : List Byte) (k : ℕ) : BitMatrix :=
  ⟨((BitRow.blocks n bytes).drop (k * n)).take n, n⟩

/-- `b` is the inverse of `m`, on both sides. -/
def IsInverse (n : ℕ) (m b : BitMatrix) : Prop :=
  b.HasShape n n ∧ m.compose b = identity n ∧ b.compose m = identity n

/-- So many matrices are in the script, and none of them has an inverse. -/
structure AllSingular (n : ℕ) (bytes : List Byte) (count : ℕ) : Prop where
  le_length : count * n * (n / 8) ≤ bytes.length
  singular : ∀ k < count, ¬∃ b, IsInverse n (matrixAt n bytes k) b

/-- The inverse that inversion finds is the inverse on both sides. -/
theorem HasShape.isInverse_iff (hm : m.HasShape n n) :
    IsInverse n m b ↔ m.invert = .ok (some b) := by
  have hn := hm.aligned
  rw [IsInverse, identity_eq_ok hn]
  refine ⟨?_, fun h => ⟨((invert_eq_some_iff hm).mp h).1, hm.compose_inverse h⟩⟩
  rintro ⟨hb, -, hmul⟩
  exact (invert_eq_some_iff hm).mpr ⟨hb, (compose_eq_eye_iff hb hm).mp hmul⟩

theorem HasShape.invert_eq_none (hm : m.HasShape n n) (h : ¬∃ b, IsInverse n m b) :
    m.invert = .ok none := by
  rcases invert_cases hm with ⟨b, hb, -⟩ | ⟨hnone, -⟩
  · exact absurd ⟨b, hm.isInverse_iff.mpr hb⟩ h
  · exact hnone

theorem hasShape_matrixAt (hn : n % 8 = 0) (h : (k + 1) * n * (n / 8) ≤ bytes.length) :
    (matrixAt n bytes k).HasShape n n := by
  refine hasShape_mk hn ?_ fun row hrow =>
    BitRow.length_of_mem_blocks hn row (List.mem_of_mem_drop (List.mem_of_mem_take hrow))
  rcases Nat.eq_zero_or_pos n with rfl | hpos
  · simp
  · have hle := BitRow.le_length_blocks hn hpos h
    rw [Nat.succ_mul] at hle
    rw [List.length_take, List.length_drop]
    omega

/-- The matrices behind the first `j`. -/
theorem matrixAt_drop (n j k : ℕ) (bytes : List Byte) :
    matrixAt n (bytes.drop (j * n * (n / 8))) k = matrixAt n bytes (j + k) := by
  rw [matrixAt, matrixAt, BitRow.blocks_drop, List.drop_drop, Nat.add_mul]

theorem AllSingular.tail (h : AllSingular n bytes (count + 1)) :
    AllSingular n (bytes.drop (n * (n / 8))) count := by
  refine ⟨?_, fun k hk => ?_⟩
  · have hle := h.le_length
    rw [Nat.succ_mul, Nat.add_mul] at hle
    rw [List.length_drop]
    omega
  · have hdrop := matrixAt_drop n 1 k bytes
    rw [Nat.one_mul, Nat.add_comm] at hdrop
    rw [hdrop]
    exact h.singular (k + 1) (Nat.succ_lt_succ hk)

/-! ## Draws -/

theorem runOn_uniform_script (hn : n % 8 = 0) (h : n * (n / 8) ≤ bytes.length) :
    (uniform n).runOn (.script bytes) =
      (.ok (matrixAt n bytes 0), .script (bytes.drop (n * (n / 8)))) := by
  have hm := hasShape_matrixAt (k := 0) hn (by rwa [Nat.zero_add, Nat.one_mul])
  refine (uniform_eq_ok_iff hn).mpr ⟨hm, (ByteSource.supplies_script_iff hn).mpr
    ⟨hm.length_row, _, ?_, rfl⟩⟩
  rw [matrixAt, Nat.zero_mul, List.drop_zero]
  exact BitRow.eq_bytesOf_take_blocks hn h

/-- A script that is too short for so many rows is used up to its last block. -/
theorem runOn_randomList_short (hn : n % 8 = 0) : ∀ {count : ℕ} {bytes : List Byte},
    bytes.length < count * (n / 8) → (BitRow.randomList n count).runOn (.script bytes) =
      (.error .sourceExhausted, .script (bytes.drop ((BitRow.blocks n bytes).length * (n / 8))))
  | 0, bytes, h => by simp at h
  | count + 1, bytes, h => by
    have hwidth : 0 < n / 8 := by
      refine Nat.pos_of_ne_zero fun hzero => ?_
      simp [hzero] at h
    rw [BitRow.randomList, Draw.runOn_bind, BitRow.runOn_random hn, BitRow.length_blocks]
    rcases Nat.lt_or_ge bytes.length (n / 8) with hlt | hge
    · rw [ByteSource.take?_script_eq_none hlt, Nat.div_eq_of_lt hlt, Nat.zero_mul, List.drop_zero]
    · have hrest : (bytes.drop (n / 8)).length < count * (n / 8) := by
        rw [List.length_drop]
        rw [Nat.succ_mul] at h
        omega
      have hdiv : bytes.length / (n / 8) = (bytes.length - n / 8) / (n / 8) + 1 :=
        Nat.div_eq_sub_div hwidth hge
      rw [ByteSource.take?, if_pos hge]
      dsimp only
      rw [Draw.runOn_bind, runOn_randomList_short hn hrest, BitRow.length_blocks, List.length_drop,
        hdiv, List.drop_drop, Nat.succ_mul, Nat.add_comm (n / 8)]

theorem runOn_uniform_short (hn : n % 8 = 0) (h : bytes.length < n * (n / 8)) :
    (uniform n).runOn (.script bytes) =
      (.error .sourceExhausted,
        .script (bytes.drop ((BitRow.blocks n bytes).length * (n / 8)))) := by
  rw [uniform, Draw.runOn_bind, runOn_randomList_short hn h]

/-- The first matrix of a script is the answer if it has an inverse. -/
theorem runOn_firstInvertible_of_some (hn : n % 8 = 0) (h : n * (n / 8) ≤ bytes.length)
    {inv : BitMatrix} (hinvert : (matrixAt n bytes 0).invert = .ok (some inv)) :
    (firstInvertible n (attempts + 1)).runOn (.script bytes) =
      (.ok (some (matrixAt n bytes 0, inv)), .script (bytes.drop (n * (n / 8)))) := by
  rw [firstInvertible, Draw.runOn_bind, runOn_uniform_script hn h]
  dsimp only
  rw [Draw.runOn_bind, Draw.runOn_liftM, hinvert]
  rfl

/-- If it has none it is dropped, and one attempt is used up. -/
theorem runOn_firstInvertible_of_none (hn : n % 8 = 0) (h : n * (n / 8) ≤ bytes.length)
    (hinvert : (matrixAt n bytes 0).invert = .ok none) :
    (firstInvertible n (attempts + 1)).runOn (.script bytes) =
      (firstInvertible n attempts).runOn (.script (bytes.drop (n * (n / 8)))) := by
  rw [firstInvertible, Draw.runOn_bind, runOn_uniform_script hn h]
  dsimp only
  rw [Draw.runOn_bind, Draw.runOn_liftM, hinvert]

/-- Singular matrices at the front of a script are dropped. -/
theorem AllSingular.runOn_firstInvertible (hn : n % 8 = 0) (attempts : ℕ) : ∀ {count : ℕ}
    {bytes : List Byte}, AllSingular n bytes count →
      (firstInvertible n (count + attempts)).runOn (.script bytes) =
        (firstInvertible n attempts).runOn (.script (bytes.drop (count * n * (n / 8))))
  | 0, bytes, _ => by rw [Nat.zero_add, Nat.zero_mul, Nat.zero_mul, List.drop_zero]
  | count + 1, bytes, h => by
    have hle := h.le_length
    rw [Nat.succ_mul, Nat.add_mul] at hle
    have hfirst : n * (n / 8) ≤ bytes.length := by omega
    have hm := hasShape_matrixAt (k := 0) hn (by rwa [Nat.zero_add, Nat.one_mul])
    have hnone := hm.invert_eq_none (h.singular 0 (Nat.succ_pos count))
    rw [Nat.add_right_comm, runOn_firstInvertible_of_none hn hfirst hnone,
      h.tail.runOn_firstInvertible hn attempts, List.drop_drop, Nat.succ_mul, Nat.add_mul,
      Nat.add_comm]

/-- The matrix behind singular ones is the answer if it has an inverse. -/
theorem AllSingular.firstInvertible_eq_some (hn : n % 8 = 0) {inv : BitMatrix}
    (h : AllSingular n bytes k) (hle : (k + 1) * n * (n / 8) ≤ bytes.length)
    (hinv : IsInverse n (matrixAt n bytes k) inv) (attempts : ℕ) :
    (firstInvertible n (k + (attempts + 1))).runOn (.script bytes) =
      (.ok (some (matrixAt n bytes k, inv)), .script (bytes.drop ((k + 1) * n * (n / 8)))) := by
  have hmatrix := matrixAt_drop n k 0 bytes
  have hinvert := (hasShape_matrixAt hn hle).isInverse_iff.mp hinv
  rw [Nat.add_zero] at hmatrix
  rw [Nat.succ_mul, Nat.add_mul] at hle ⊢
  have hrest : n * (n / 8) ≤ (bytes.drop (k * n * (n / 8))).length := by
    rw [List.length_drop]
    omega
  rw [h.runOn_firstInvertible hn,
    runOn_firstInvertible_of_some hn hrest (hmatrix.symm ▸ hinvert), hmatrix, List.drop_drop]

/-- Behind singular matrices too few bytes are left for another one. -/
theorem AllSingular.firstInvertible_eq_error (hn : n % 8 = 0) (h : AllSingular n bytes k)
    (hlt : bytes.length < (k + 1) * n * (n / 8)) (attempts : ℕ) :
    (firstInvertible n (k + (attempts + 1))).runOn (.script bytes) =
      (.error .sourceExhausted,
        .script (bytes.drop ((BitRow.blocks n bytes).length * (n / 8)))) := by
  have hle := h.le_length
  rw [Nat.succ_mul, Nat.add_mul] at hlt
  have hrest : (bytes.drop (k * n * (n / 8))).length < n * (n / 8) := by
    rw [List.length_drop]
    omega
  have hpos : 0 < n := by
    refine Nat.pos_of_ne_zero fun hzero => ?_
    simp [hzero] at hrest
  have hblocks := BitRow.le_length_blocks hn hpos hle
  rw [h.runOn_firstInvertible hn, firstInvertible, Draw.runOn_bind, runOn_uniform_short hn hrest,
    BitRow.blocks_drop, List.length_drop, List.drop_drop, ← Nat.add_mul,
    Nat.add_sub_cancel' hblocks]

/-! ## Whole runs -/

/-- How rejection ends on a script, and the bytes that it takes. -/
inductive Samples (n maxAttempts : ℕ) (bytes : List Byte) :
    Except Error (BitMatrix × BitMatrix) → ℕ → Prop
  /-- The first matrix with an inverse is drawn, and nothing behind it. -/
  | found {k : ℕ} {inv : BitMatrix} : k < maxAttempts → AllSingular n bytes k →
      (k + 1) * n * (n / 8) ≤ bytes.length → IsInverse n (matrixAt n bytes k) inv →
        Samples n maxAttempts bytes (.ok (matrixAt n bytes k, inv)) ((k + 1) * n * (n / 8))
  /-- As many matrices as are allowed are drawn and singular. -/
  | refused : AllSingular n bytes maxAttempts →
      Samples n maxAttempts bytes (.error (.retryLimitExceeded maxAttempts))
        (maxAttempts * n * (n / 8))
  /-- The script ends within a matrix, and all its blocks are drawn. -/
  | exhausted {k : ℕ} : k < maxAttempts → AllSingular n bytes k →
      bytes.length < (k + 1) * n * (n / 8) →
        Samples n maxAttempts bytes (.error .sourceExhausted)
          ((BitRow.blocks n bytes).length * (n / 8))

/-- Every script makes rejection end in one of the three ways : the singular matrices at its front
are followed by one with an inverse, or reach the limit, or are followed by too few bytes. -/
theorem exists_samples (n maxAttempts : ℕ) (bytes : List Byte) :
    ∃ result count, Samples n maxAttempts bytes result count := by
  induction maxAttempts with
  | zero => exact ⟨_, _, .refused ⟨by simp, fun k hk => absurd hk (Nat.not_lt_zero k)⟩⟩
  | succ attempts ih =>
    obtain ⟨result, count, h⟩ := ih
    cases h with
    | found hk hall hle hinv => exact ⟨_, _, .found (Nat.lt_succ_of_lt hk) hall hle hinv⟩
    | exhausted hk hall hlt => exact ⟨_, _, .exhausted (Nat.lt_succ_of_lt hk) hall hlt⟩
    | refused hall =>
      rcases Nat.lt_or_ge bytes.length ((attempts + 1) * n * (n / 8)) with hlt | hle
      · exact ⟨_, _, .exhausted (Nat.lt_succ_self attempts) hall hlt⟩
      · by_cases hinv : ∃ b, IsInverse n (matrixAt n bytes attempts) b
        · obtain ⟨b, hb⟩ := hinv
          exact ⟨_, _, .found (Nat.lt_succ_self attempts) hall hle hb⟩
        · refine ⟨_, _, .refused ⟨hle, fun k hk => ?_⟩⟩
          rcases Nat.lt_succ_iff_lt_or_eq.mp hk with hlt | rfl
          · exact hall.singular k hlt
          · exact hinv

theorem Samples.count_le (h : Samples n maxAttempts bytes result count) :
    count ≤ bytes.length := by
  cases h with
  | found _ _ hle _ => exact hle
  | refused hall => exact hall.le_length
  | exhausted _ _ _ =>
    rw [BitRow.length_blocks]
    exact Nat.div_mul_le_self _ _

/-- Rejection ends in each of the three ways where that applies. -/
theorem Samples.runOn_rejectionSample (hn : n % 8 = 0)
    (h : Samples n maxAttempts bytes result count) :
    (rejectionSample n maxAttempts).runOn (.script bytes) =
      (result, .script (bytes.drop count)) := by
  rw [rejectionSample, Draw.runOn_bind]
  cases h with
  | found hk hall hle hinv =>
    obtain ⟨attempts, rfl⟩ := Nat.exists_eq_add_of_lt hk
    rw [Nat.add_assoc, hall.firstInvertible_eq_some hn hle hinv]
    rfl
  | refused hall =>
    have hrun := hall.runOn_firstInvertible hn 0
    rw [Nat.add_zero] at hrun
    rw [hrun]
    rfl
  | exhausted hk hall hlt =>
    obtain ⟨attempts, rfl⟩ := Nat.exists_eq_add_of_lt hk
    rw [Nat.add_assoc, hall.firstInvertible_eq_error hn hlt]

/-- What is found under a limit is found under every larger one. -/
theorem rejectionSample_eq_ok_of_le {source after : ByteSource} {pair : BitMatrix × BitMatrix}
    (h : (rejectionSample n maxAttempts).runOn source = (.ok pair, after)) {larger : ℕ}
    (hle : maxAttempts ≤ larger) : (rejectionSample n larger).runOn source = (.ok pair, after) := by
  obtain ⟨hm, -⟩ := of_rejectionSample_eq_ok h
  obtain ⟨failed, hlen, hrest⟩ := (rejectionSample_eq_ok_iff hm.aligned).mp h
  exact (rejectionSample_eq_ok_iff hm.aligned).mpr ⟨failed, hlen.trans_le hle, hrest⟩

/-- A width that does not fill whole bytes is noticed at the first draw, if there is one. -/
theorem runOn_rejectionSample_of_unaligned (hn : n % 8 ≠ 0) (maxAttempts : ℕ)
    (source : ByteSource) : (rejectionSample n maxAttempts).runOn source =
      (.error (if maxAttempts = 0 then .retryLimitExceeded 0 else .unaligned n), source) := by
  cases maxAttempts with
  | zero => rfl
  | succ attempts =>
    rw [rejectionSample, Draw.runOn_bind, firstInvertible, Draw.runOn_bind,
      runOn_uniform_of_unaligned hn]
    rfl

/-- Rejection on a script ends in exactly one way : with the first of its matrices that has an
inverse, with as many singular ones as are allowed, or with the script. A larger limit does not
change what was found. -/
theorem rejectionSample_samples (n maxAttempts : ℕ) (bytes : List Byte) :
    (n % 8 = 0 → (∃ result count, Samples n maxAttempts bytes result count) ∧
      ∀ result count, Samples n maxAttempts bytes result count ↔
        ((rejectionSample n maxAttempts).runOn (.script bytes)).1 = result ∧
          (rejectionSample n maxAttempts).Consumes bytes count) ∧
    (∀ pair after larger, maxAttempts ≤ larger →
      (rejectionSample n maxAttempts).runOn (.script bytes) = (.ok pair, after) →
        (rejectionSample n larger).runOn (.script bytes) = (.ok pair, after)) ∧
    (n % 8 ≠ 0 → (rejectionSample n maxAttempts).runOn (.script bytes) =
      (.error (if maxAttempts = 0 then .retryLimitExceeded 0 else .unaligned n),
        .script bytes)) := by
  refine ⟨fun hn => ⟨exists_samples n maxAttempts bytes, fun result count => ⟨fun h => ?_, ?_⟩⟩,
    fun pair after larger hle h => rejectionSample_eq_ok_of_le h hle,
    fun hn => runOn_rejectionSample_of_unaligned hn maxAttempts _⟩
  · have hrun := h.runOn_rejectionSample hn
    exact ⟨congrArg Prod.fst hrun, h.count_le, congrArg Prod.snd hrun⟩
  · rintro ⟨rfl, hconsumes⟩
    obtain ⟨result, taken, h⟩ := exists_samples n maxAttempts bytes
    have hrun := h.runOn_rejectionSample hn
    obtain rfl : count = taken := hconsumes.unique ⟨h.count_le, congrArg Prod.snd hrun⟩
    rwa [hrun]

/-- The matrix without rows takes no bytes and is its own inverse. -/
example : (rejectionSample 0 1).runOn (.script [7]) =
    (.ok (⟨[], 0⟩, ⟨[], 0⟩), .script [7]) := by cbv

/-- A singular matrix, one with an inverse, and a byte behind them. -/
theorem rejectionSample_samples_eight : 8 % 8 = 0 ∧
    Samples 8 2 [2, 1, 4, 8, 16, 96, 64, 0, 2, 1, 4, 8, 16, 96, 64, 255, 7]
      (.ok (sample, sampleInverse)) 16 ∧
    9 % 8 ≠ 0 ∧ (rejectionSample 9 0).runOn (.script [2, 1]) =
      (.error (.retryLimitExceeded 0), .script [2, 1]) := by
  have hrun : (rejectionSample 8 2).runOn (.script
        [2, 1, 4, 8, 16, 96, 64, 0, 2, 1, 4, 8, 16, 96, 64, 255, 7]) =
      (.ok (sample, sampleInverse), .script [7]) := by cbv
  refine ⟨rfl, (((rejectionSample_samples 8 2 _).1 rfl).2 _ _).mpr ⟨?_, ?_, ?_⟩, by decide,
    (rejectionSample_samples 9 0 _).2.2 (by decide)⟩
  · rw [hrun]
  · decide
  · rw [hrun]
    rfl

end BitMatrix

end BitLinear
