import BitLinear.Proofs.Faults

/-!
# Every value that can be built

An `Operation` is a call of the library with its arguments, and `reply` is what it hands back : a
result, and the operand that it changed. The measures of rows, the sizes and the texts are left
out, since they make no values and have no way to fail. `Built` are the values that calls make from
built values, in any number of steps.

Every built matrix is well formed and every built basis keeps its invariant (`Built.sound`), because
each operation makes sound values of sound ones (`Operation.faultless_reply`,
`Operation.sound_changed`). The last statement says when a call on built values faults. A position
past the end is reported by the two accessors of a bit alone, and two lengths that differ only by
the operations whose arguments they are; a fault from within an operation would be an answer of one
of these two kinds.
-/

namespace BitLinear

open BitMatrix (BufferMap)

/-! ## Values, operations and replies -/

/-- A value that a caller can hold. -/
inductive Value where
  | row (row : BitRow)
  | matrix (m : BitMatrix)
  | basis (basis : RowBasis)
  | generator (generator : Generator)

/-- A call with its arguments. -/
inductive Operation : Type 1 where
  -- rows
  | rowOfBytes (bytes : List Byte)
  | zeroRow (bits : ℕ)
  | unitRow (bits index : ℕ)
  | parseRow (text : String)
  | randomRow (bits : ℕ) (source : ByteSource)
  | addRows (a b : BitRow)
  | mulRows (a b : BitRow)
  | dot (a b : BitRow)
  | getBit (row : BitRow) (index : ℕ)
  | setBit (row : BitRow) (index : ℕ) (value : Bool)
  -- making matrices
  | zeroMatrix (n : ℕ)
  | identity (n : ℕ)
  | full (n : ℕ)
  | ofRows (rows : List BitRow)
  | parseMatrix (text : String)
  | ofStatefulMap {σ : Type} (bits : ℕ) (map : BufferMap σ) (state : σ)
  | random (n : ℕ) (source : ByteSource)
  | randomWithLimit (n maxAttempts : ℕ) (source : ByteSource)
  | randomInvertible (n : ℕ) (source : ByteSource)
  -- matrices
  | rowsOf (m : BitMatrix)
  | apply (m : BitMatrix) (input : BitRow)
  | applyToBytes (m : BitMatrix) (input : List Byte)
  | addMatrices (a b : BitMatrix)
  | compose (a b : BitMatrix)
  | transpose (m : BitMatrix)
  | invert (m : BitMatrix)
  | isInvertible (m : BitMatrix)
  | trace (m : BitMatrix)
  -- bases
  | emptyBasis (n : ℕ)
  | insert (basis : RowBasis) (row : BitRow)
  | isInSpan (basis : RowBasis) (row : BitRow)
  | novel (basis : RowBasis) (source : ByteSource)
  | basisMatrix (basis : RowBasis)
  | inverse (basis : RowBasis)
  -- generators
  | newGenerator (source : ByteSource) (config : GeneratorConfig)
  | setStrategy (generator : Generator) (strategy : Strategy)
  | setMaxAttempts (generator : Generator) (maxAttempts : ℕ)
  | drawRow (generator : Generator) (bits : ℕ)
  | drawMatrix (generator : Generator) (n : ℕ)
  | drawInvertible (generator : Generator) (n : ℕ)
  | mask (generator : Generator) (inner : BitMatrix)

/-- The values in the result of a call, and the operand that it left changed. -/
structure Reply where
  /-- The values in the result, or why there is none. -/
  result : Except Error (List Value)
  /-- The operands that are no longer what they were. -/
  changed : List Value := []

namespace Reply

variable {α : Type}

/-- The reply of a checked operation. -/
def ofResult (values : α → List Value) (result : Except Error α) : Reply :=
  ⟨result.map values, []⟩

/-- The reply of a draw from a source of the caller. -/
def ofDraw (values : α → List Value) (draw : Draw α) (source : ByteSource) : Reply :=
  ofResult values (draw.runOn source).1

/-- The reply of a computation with a generator, which goes on in its source. -/
def ofRun (values : α → List Value) (generator : Generator) (action : Generating α) : Reply :=
  ⟨(generator.run action).1.map values, [.generator (generator.run action).2]⟩

end Reply

namespace Operation

/-- The values among the arguments. -/
def operands : Operation → List Value
  | addRows a b | mulRows a b | dot a b => [.row a, .row b]
  | getBit row _ | setBit row _ _ => [.row row]
  | ofRows rows => rows.map .row
  | apply m input => [.matrix m, .row input]
  | addMatrices a b | compose a b => [.matrix a, .matrix b]
  | rowsOf m | applyToBytes m _ | transpose m | invert m | isInvertible m | trace m => [.matrix m]
  | insert basis row | isInSpan basis row => [.basis basis, .row row]
  | novel basis _ | basisMatrix basis | inverse basis => [.basis basis]
  | setStrategy generator _ | setMaxAttempts generator _ | drawRow generator _
  | drawMatrix generator _ | drawInvertible generator _ => [.generator generator]
  | mask generator inner => [.generator generator, .matrix inner]
  | _ => []

/-- What a call hands back. -/
def reply : Operation → Reply
  | rowOfBytes bytes => ⟨.ok [.row (BitRow.ofBytes bytes)], []⟩
  | zeroRow bits => .ofResult (fun row => [.row row]) (BitRow.zero bits)
  | unitRow bits index => .ofResult (fun row => [.row row]) (BitRow.unit bits index)
  | parseRow text => .ofResult (fun row => [.row row]) (BitRow.parse text)
  | randomRow bits source => .ofDraw (fun row => [.row row]) (BitRow.random bits) source
  | addRows a b => .ofResult (fun row => [.row row]) (a.add b)
  | mulRows a b => .ofResult (fun row => [.row row]) (a.mul b)
  | dot a b => .ofResult (fun _ => []) (a.dot b)
  | getBit row index => .ofResult (fun _ => []) (row.getBit index)
  | setBit row index value => .ofResult (fun row => [.row row]) (row.setBit index value)
  | zeroMatrix n => .ofResult (fun m => [.matrix m]) (BitMatrix.zero n)
  | identity n => .ofResult (fun m => [.matrix m]) (BitMatrix.identity n)
  | full n => .ofResult (fun m => [.matrix m]) (BitMatrix.full n)
  | ofRows rows => .ofResult (fun m => [.matrix m]) (BitMatrix.ofRows rows)
  | parseMatrix text => .ofResult (fun m => [.matrix m]) (BitMatrix.parse text)
  | ofStatefulMap bits map state =>
    .ofResult (fun made => [.matrix made.1]) ((BitMatrix.ofStatefulMap bits map.run).run state)
  | random n source => .ofDraw (fun m => [.matrix m]) (BitMatrix.random n) source
  | randomWithLimit n maxAttempts source =>
    .ofDraw (fun m => [.matrix m]) (BitMatrix.randomWithLimit n maxAttempts) source
  | randomInvertible n source =>
    .ofDraw (fun pair => [.matrix pair.1, .matrix pair.2]) (BitMatrix.randomInvertible n) source
  | rowsOf m => ⟨.ok (m.rows.map .row), []⟩
  | apply m input => .ofResult (fun row => [.row row]) (m.apply input)
  | applyToBytes m input => .ofResult (fun _ => []) (m.applyToBytes input)
  | addMatrices a b => .ofResult (fun m => [.matrix m]) (a.add b)
  | compose a b => .ofResult (fun m => [.matrix m]) (a.compose b)
  | transpose m => .ofResult (fun m => [.matrix m]) m.transpose
  | invert m => .ofResult (fun inverse => inverse.toList.map .matrix) m.invert
  | isInvertible m => .ofResult (fun _ => []) m.isInvertible
  | trace m => .ofResult (fun _ => []) m.trace
  | emptyBasis n => .ofResult (fun basis => [.basis basis]) (RowBasis.empty n)
  | insert basis row => ⟨(basis.offer row).1.map fun _ => [], [.basis (basis.offer row).2]⟩
  | isInSpan basis row => .ofResult (fun _ => []) (basis.isInSpan row)
  | novel basis source => .ofDraw (fun row => [.row row]) basis.novel source
  | basisMatrix basis => ⟨.ok [.matrix basis.matrix], []⟩
  | inverse basis => .ofResult (fun m => [.matrix m]) basis.inverse
  | newGenerator source config => ⟨.ok [.generator ⟨source, config⟩], []⟩
  | setStrategy generator strategy =>
    .ofRun (fun _ => []) generator (Generator.setStrategy strategy)
  | setMaxAttempts generator maxAttempts =>
    .ofRun (fun _ => []) generator (Generator.setMaxAttempts maxAttempts)
  | drawRow generator bits =>
    .ofRun (fun row => [.row row]) generator (Generator.randomRow bits)
  | drawMatrix generator n =>
    .ofRun (fun m => [.matrix m]) generator (Generator.randomMatrix n)
  | drawInvertible generator n =>
    .ofRun (fun pair => [.matrix pair.1, .matrix pair.2]) generator (Generator.randomInvertible n)
  | mask generator inner =>
    .ofRun (fun masking => [.matrix masking.mask, .matrix masking.unmask, .matrix masking.masked])
      generator (Generator.mask inner)

/-- The row and the position of a bit that a caller names. -/
def reads : Operation → Option (BitRow × ℕ)
  | getBit row index | setBit row index _ => some (row, index)
  | _ => none

/-- The two lengths that the arguments of a call must have in common. -/
def compares : Operation → Option (ℕ × ℕ)
  | addRows a b | mulRows a b | dot a b => some (a.length, b.length)
  | insert basis row | isInSpan basis row => some (basis.dimension, row.length)
  | _ => none

end Operation

/-- The values that calls make from values that calls made. -/
inductive Built : Value → Prop
  | result (op : Operation) {values : List Value} {v : Value}
      (operands : ∀ w ∈ op.operands, Built w) (result : op.reply.result = .ok values)
      (mem : v ∈ values) : Built v
  | changed (op : Operation) {v : Value} (operands : ∀ w ∈ op.operands, Built w)
      (mem : v ∈ op.reply.changed) : Built v

/-! ## Sound values -/

/-- A matrix is well formed, a basis keeps its invariant. -/
def Value.Sound : Value → Prop
  | .matrix m => m.WellFormed
  | .basis b => b.Invariant b.dimension
  | .row _ | .generator _ => True

/-- Every value is sound. -/
def AllSound (values : List Value) : Prop :=
  ∀ v ∈ values, v.Sound

theorem AllSound.matrix {values : List Value} (h : AllSound values) {m : BitMatrix}
    (hm : .matrix m ∈ values) : m.WellFormed :=
  h _ hm

theorem AllSound.basis {values : List Value} (h : AllSound values) {b : RowBasis}
    (hb : .basis b ∈ values) : b.Invariant b.dimension :=
  h _ hb

/-- The values of a faultless result are sound if those of every answer are. -/
theorem Faultless.sound {α : Type} {p : α → Prop} {result : Except Error α}
    {values : α → List Value} (h : Faultless p result) (hp : ∀ a, p a → AllSound (values a)) :
    Faultless AllSound (result.map values) := by
  cases result with
  | ok value => exact hp value h
  | error cause => exact h

theorem allSound_row (row : BitRow) : AllSound [.row row] := by
  simp [AllSound, Value.Sound]

theorem allSound_matrix {m : BitMatrix} (hm : m.WellFormed) : AllSound [.matrix m] := by
  simpa [AllSound, Value.Sound] using hm

theorem allSound_pair {a b : BitMatrix} (h : a.WellFormed ∧ b.WellFormed) :
    AllSound [.matrix a, .matrix b] := by
  simpa [AllSound, Value.Sound] using h

theorem allSound_basis {n : ℕ} {b : RowBasis} (h : b.Invariant n) : AllSound [.basis b] := by
  obtain rfl := h.dimension_eq
  simpa [AllSound, Value.Sound] using h

theorem allSound_generator (g : Generator) : AllSound [.generator g] := by
  simp [AllSound, Value.Sound]

theorem allSound_nil : AllSound [] := by
  simp [AllSound]

namespace Operation

/-- On sound operands, with positions inside the row and lengths that agree, a call does not fault,
and the values that it makes are sound. -/
theorem faultless_reply {op : Operation} (hsound : AllSound op.operands)
    (hreads : ∀ row index, op.reads = some (row, index) → index < row.length)
    (hcompares : ∀ left right, op.compares = some (left, right) → left = right) :
    Faultless AllSound op.reply.result := by
  cases op with
  | rowOfBytes bytes => exact allSound_row _
  | zeroRow bits => exact (BitRow.zero_faultless bits).sound fun row _ => allSound_row row
  | unitRow bits index =>
    exact (BitRow.unit_faultless bits index).sound fun row _ => allSound_row row
  | parseRow text =>
    exact (BitRow.ofDigits_faultless text.toList).sound fun row _ => allSound_row row
  | randomRow bits source =>
    exact (BitRow.random_faultless bits source).sound fun row _ => allSound_row row
  | addRows a b =>
    exact (BitRow.add_faultless (hcompares _ _ rfl)).sound fun row _ => allSound_row row
  | mulRows a b =>
    exact (BitRow.mul_faultless (hcompares _ _ rfl)).sound fun row _ => allSound_row row
  | dot a b =>
    exact (BitRow.dot_faultless (hcompares _ _ rfl)).sound fun _ _ => allSound_nil
  | getBit row index =>
    exact (BitRow.getBit_faultless (hreads _ _ rfl)).sound fun _ _ => allSound_nil
  | setBit row index value =>
    exact (BitRow.setBit_faultless value (hreads _ _ rfl)).sound fun row _ => allSound_row row
  | zeroMatrix n => exact (BitMatrix.zero_faultless n).sound fun _ => allSound_matrix
  | identity n => exact (BitMatrix.identity_faultless n).sound fun _ => allSound_matrix
  | full n => exact (BitMatrix.full_faultless n).sound fun _ => allSound_matrix
  | ofRows rows => exact (BitMatrix.ofRows_faultless rows).sound fun _ => allSound_matrix
  | parseMatrix text => exact (BitMatrix.parse_faultless text).sound fun _ => allSound_matrix
  | ofStatefulMap bits map state =>
    exact (BitMatrix.ofStatefulMap_faultless bits map state).sound fun _ => allSound_matrix
  | random n source =>
    exact (BitMatrix.randomWithLimit_faultless n _ source).sound fun _ => allSound_matrix
  | randomWithLimit n maxAttempts source =>
    exact (BitMatrix.randomWithLimit_faultless n maxAttempts source).sound fun _ => allSound_matrix
  | randomInvertible n source =>
    exact (BitMatrix.randomInvertible_faultless n source).sound fun _ => allSound_pair
  | rowsOf m =>
    exact List.forall_mem_map.mpr fun row _ => trivial
  | apply m input =>
    exact (BitMatrix.apply_faultless (hsound.matrix (by simp [operands])) input).sound fun row _ =>
      allSound_row row
  | applyToBytes m input =>
    have hm : m.WellFormed := hsound.matrix (by simp [operands])
    exact (BitMatrix.applyToBytes_faultless hm input).sound fun _ _ => allSound_nil
  | addMatrices a b =>
    have ha : a.WellFormed := hsound.matrix (by simp [operands])
    have hb : b.WellFormed := hsound.matrix (by simp [operands])
    exact (BitMatrix.add_faultless ha hb).sound fun _ => allSound_matrix
  | compose a b =>
    have ha : a.WellFormed := hsound.matrix (by simp [operands])
    have hb : b.WellFormed := hsound.matrix (by simp [operands])
    exact (BitMatrix.compose_faultless ha hb).sound fun _ => allSound_matrix
  | transpose m =>
    exact (BitMatrix.transpose_faultless (hsound.matrix (by simp [operands]))).sound fun _ =>
      allSound_matrix
  | invert m =>
    have hm : m.WellFormed := hsound.matrix (by simp [operands])
    refine (BitMatrix.invert_faultless hm).sound fun inverse hinverse => ?_
    exact List.forall_mem_map.mpr fun b hb => hinverse b (Option.mem_toList.mp hb)
  | isInvertible m =>
    have hm : m.WellFormed := hsound.matrix (by simp [operands])
    exact (BitMatrix.isInvertible_faultless hm).sound fun _ _ => allSound_nil
  | trace m =>
    exact (BitMatrix.trace_faultless (hsound.matrix (by simp [operands]))).sound fun _ _ =>
      allSound_nil
  | emptyBasis n =>
    exact (RowBasis.empty_faultless n).sound fun _ => allSound_basis
  | insert basis row =>
    have hbasis := hsound.basis (b := basis) (by simp [operands])
    exact (hbasis.offer_faultless (hcompares _ _ rfl).symm).sound fun _ _ => allSound_nil
  | isInSpan basis row =>
    have hbasis := hsound.basis (b := basis) (by simp [operands])
    exact (hbasis.isInSpan_faultless (hcompares _ _ rfl).symm).sound fun _ _ => allSound_nil
  | novel basis source =>
    have hbasis := hsound.basis (b := basis) (by simp [operands])
    exact (hbasis.novel_faultless source).sound fun row _ => allSound_row row
  | basisMatrix basis =>
    have hbasis := hsound.basis (b := basis) (by simp [operands])
    exact allSound_matrix hbasis.wellFormed_matrix
  | inverse basis =>
    have hbasis := hsound.basis (b := basis) (by simp [operands])
    exact hbasis.inverse_faultless.sound fun _ => allSound_matrix
  | newGenerator source config => exact allSound_generator _
  | setStrategy generator strategy => exact allSound_nil
  | setMaxAttempts generator maxAttempts => exact allSound_nil
  | drawRow generator bits =>
    exact (BitRow.random_faultless bits generator.source).sound fun row _ => allSound_row row
  | drawMatrix generator n =>
    exact (generator.randomMatrix_faultless n).sound fun _ => allSound_matrix
  | drawInvertible generator n =>
    exact (generator.randomInvertible_faultless n).sound fun _ => allSound_pair
  | mask generator inner =>
    have hinner : inner.WellFormed := hsound.matrix (by simp [operands])
    refine (generator.mask_faultless hinner).sound fun masking hmasking => ?_
    simpa [AllSound, Value.Sound] using hmasking

/-- What a call leaves in place of a sound operand is sound, also if it fails. -/
theorem sound_changed {op : Operation} (hsound : AllSound op.operands) :
    AllSound op.reply.changed := by
  cases op with
  | insert basis row =>
    exact allSound_basis ((hsound.basis (b := basis) (by simp [operands])).offer row)
  | setStrategy | setMaxAttempts | drawRow | drawMatrix | drawInvertible | mask =>
    exact allSound_generator _
  | _ => exact allSound_nil

/-- A position past the end is reported with the number of bytes and the byte it would be in. -/
theorem reply_of_reads {op : Operation} {row : BitRow} {index : ℕ}
    (h : op.reads = some (row, index)) (hindex : row.length ≤ index) :
    op.reply.result = .error (.outOfBounds row.bytes.size (index / 8)) := by
  cases op with
  | getBit r i =>
    obtain ⟨rfl, rfl⟩ : r = row ∧ i = index := by simpa [reads] using h
    rw [reply, Reply.ofResult, BitRow.getBit_eq_error hindex]
    rfl
  | setBit r i value =>
    obtain ⟨rfl, rfl⟩ : r = row ∧ i = index := by simpa [reads] using h
    rw [reply, Reply.ofResult, BitRow.setBit_eq_error value hindex]
    rfl
  | _ => simp [reads] at h

/-- Lengths that differ are reported as they are. -/
theorem reply_of_compares {op : Operation} {left right : ℕ} (h : op.compares = some (left, right))
    (hne : left ≠ right) : op.reply.result = .error (.lengthMismatch left right) := by
  cases op with
  | addRows a b =>
    obtain ⟨rfl, rfl⟩ : a.length = left ∧ b.length = right := by simpa [compares] using h
    rw [reply, Reply.ofResult, BitRow.add, BitRow.checkSameLength, if_neg hne]
    rfl
  | mulRows a b =>
    obtain ⟨rfl, rfl⟩ : a.length = left ∧ b.length = right := by simpa [compares] using h
    rw [reply, Reply.ofResult, BitRow.mul, BitRow.checkSameLength, if_neg hne]
    rfl
  | dot a b =>
    obtain ⟨rfl, rfl⟩ : a.length = left ∧ b.length = right := by simpa [compares] using h
    rw [reply, Reply.ofResult, BitRow.dot, BitRow.checkSameLength, if_neg hne]
    rfl
  | insert basis row =>
    obtain ⟨rfl, rfl⟩ : basis.dimension = left ∧ row.length = right := by
      simpa [compares] using h
    rw [reply, RowBasis.offer_of_length_ne hne.symm]
    rfl
  | isInSpan basis row =>
    obtain ⟨rfl, rfl⟩ : basis.dimension = left ∧ row.length = right := by
      simpa [compares] using h
    rw [reply, Reply.ofResult, RowBasis.isInSpan, RowBasis.checkWidth_eq_error hne.symm]
    rfl
  | _ => simp [compares] at h

/-- A call on sound operands does not fault, unless the caller named a position past the end or
gave lengths that differ. -/
theorem reply_cases {op : Operation} (hsound : AllSound op.operands) :
    Faultless AllSound op.reply.result ∨
      (∃ row index, op.reads = some (row, index) ∧ row.length ≤ index ∧
        op.reply.result = .error (.outOfBounds row.bytes.size (index / 8))) ∨
      ∃ left right, op.compares = some (left, right) ∧ left ≠ right ∧
        op.reply.result = .error (.lengthMismatch left right) := by
  by_cases hreads : ∃ row index, op.reads = some (row, index) ∧ row.length ≤ index
  · obtain ⟨row, index, h, hindex⟩ := hreads
    exact Or.inr (Or.inl ⟨row, index, h, hindex, reply_of_reads h hindex⟩)
  by_cases hcompares : ∃ left right, op.compares = some (left, right) ∧ left ≠ right
  · obtain ⟨left, right, h, hne⟩ := hcompares
    exact Or.inr (Or.inr ⟨left, right, h, hne, reply_of_compares h hne⟩)
  refine Or.inl (faultless_reply hsound (fun row index h => ?_) fun left right h => ?_)
  · exact Nat.lt_of_not_le fun hindex => hreads ⟨row, index, h, hindex⟩
  · exact not_not.mp fun hne => hcompares ⟨left, right, h, hne⟩

theorem sound_result {op : Operation} (hsound : AllSound op.operands) {values : List Value}
    (hresult : op.reply.result = .ok values) : AllSound values := by
  rcases reply_cases hsound with h | ⟨_, _, -, -, h⟩ | ⟨_, _, -, -, h⟩
  · rw [hresult] at h
    exact h
  · rw [hresult] at h
    cases h
  · rw [hresult] at h
    cases h

theorem outOfBounds_iff {op : Operation} (hsound : AllSound op.operands) {size index : ℕ} :
    op.reply.result = .error (.outOfBounds size index) ↔ ∃ row position,
      op.reads = some (row, position) ∧ row.length ≤ position ∧
        size = row.bytes.size ∧ index = position / 8 := by
  refine ⟨fun hresult => ?_, ?_⟩
  · rcases reply_cases hsound with h | ⟨row, position, h, hle, heq⟩ | ⟨left, right, -, -, heq⟩
    · rw [hresult] at h
      exact absurd trivial h
    · rw [hresult] at heq
      obtain ⟨hsize, hindex⟩ := Error.outOfBounds.inj (Except.error.inj heq)
      exact ⟨row, position, h, hle, hsize, hindex⟩
    · rw [hresult] at heq
      cases heq
  · rintro ⟨row, position, h, hle, rfl, rfl⟩
    exact reply_of_reads h hle

theorem lengthMismatch_iff {op : Operation} (hsound : AllSound op.operands) {left right : ℕ} :
    op.reply.result = .error (.lengthMismatch left right) ↔
      op.compares = some (left, right) ∧ left ≠ right := by
  refine ⟨fun hresult => ?_, fun h => reply_of_compares h.1 h.2⟩
  rcases reply_cases hsound with h | ⟨_, _, -, -, heq⟩ | ⟨l, r, h, hne, heq⟩
  · rw [hresult] at h
    exact absurd trivial h
  · rw [hresult] at heq
    cases heq
  · rw [hresult] at heq
    obtain ⟨rfl, rfl⟩ := Error.lengthMismatch.inj (Except.error.inj heq)
    exact ⟨h, hne⟩

end Operation

/-! ## Built values -/

/-- Every value that calls make is sound, in any number of steps. -/
theorem Built.sound {v : Value} (h : Built v) : v.Sound := by
  induction h with
  | result op _ hresult hmem ih => exact Operation.sound_result ih hresult _ hmem
  | changed op _ hmem ih => exact Operation.sound_changed ih _ hmem

/-- Every matrix that calls make in any number of steps has rows of exactly its width, which fills
whole bytes. A call on values so made reports a position past the end exactly if it reads or writes
that bit of a row for its caller, and lengths that differ exactly if it is asked to combine or to
test rows of these lengths. -/
theorem built_wellFormed_faultless :
    (∀ m, Built (.matrix m) → m.cols % 8 = 0 ∧ ∀ row ∈ m.rows, row.length = m.cols) ∧
      ∀ op : Operation, (∀ v ∈ op.operands, Built v) →
        (∀ size index, op.reply.result = .error (.outOfBounds size index) ↔
          ∃ row position, op.reads = some (row, position) ∧ row.length ≤ position ∧
            size = row.bytes.size ∧ index = position / 8) ∧
        ∀ left right, op.reply.result = .error (.lengthMismatch left right) ↔
          op.compares = some (left, right) ∧ left ≠ right := by
  refine ⟨fun m hm => hm.sound, fun op hbuilt => ?_⟩
  have hsound : AllSound op.operands := fun v hv => (hbuilt v hv).sound
  exact ⟨fun size index => Operation.outOfBounds_iff hsound,
    fun left right => Operation.lengthMismatch_iff hsound⟩

/-- Eight rows of sixteen bits, their transpose, a read past the end of a row of it, and a row of it
added to one of the rows before. -/
theorem built_wellFormed_faultless_sixteen :
    let m : BitMatrix := ⟨List.replicate 8 ⟨#[1, 2]⟩, 16⟩
    let t : BitMatrix := ⟨(List.range 16).map fun j => ⟨#[if j = 0 ∨ j = 9 then 255 else 0]⟩, 8⟩
    (Operation.transpose m).reply.result = .ok [.matrix t] ∧
      (t.cols % 8 = 0 ∧ ∀ row ∈ t.rows, row.length = t.cols) ∧
      (Operation.getBit ⟨#[255]⟩ 9).reply.result = .error (.outOfBounds 1 1) ∧
      (Operation.addRows ⟨#[255]⟩ ⟨#[1, 2]⟩).reply.result = .error (.lengthMismatch 8 16) := by
  intro m t
  have hrow (row : BitRow) : Built (.row row) :=
    .result (.rowOfBytes row.toBytes) (by simp [Operation.operands]) rfl
      (List.mem_singleton.mpr rfl)
  have hm : Built (.matrix m) :=
    .result (.ofRows m.rows) (List.forall_mem_map.mpr fun row _ => hrow row) rfl
      List.mem_cons_self
  have hresult : (Operation.transpose m).reply.result = .ok [.matrix t] := by cbv
  have ht : Built (.matrix t) :=
    .result (.transpose m) (List.forall_mem_singleton.mpr hm) hresult List.mem_cons_self
  refine ⟨hresult, built_wellFormed_faultless.1 t ht, ?_, ?_⟩
  · refine ((built_wellFormed_faultless.2 (.getBit ⟨#[255]⟩ 9) ?_).1 1 1).mpr ?_
    · exact List.forall_mem_singleton.mpr (hrow _)
    · exact ⟨⟨#[255]⟩, 9, rfl, by decide, rfl, rfl⟩
  · refine ((built_wellFormed_faultless.2 (.addRows ⟨#[255]⟩ ⟨#[1, 2]⟩) ?_).2 8 16).mpr ?_
    · exact List.forall_mem_cons.mpr ⟨hrow _, List.forall_mem_singleton.mpr (hrow _)⟩
    · exact ⟨rfl, by decide⟩

end BitLinear
