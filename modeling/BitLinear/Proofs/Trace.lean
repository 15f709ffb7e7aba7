import BitLinear.Proofs.Composition
import BitLinear.Proofs.Inversion

/-!
# The trace of a square matrix

The trace is computed by a loop over the numbered rows (`HasShape.zipIdx_rows`). On a square matrix
it does not fail and is the sum of the bits on the diagonal (`HasShape.trace_eq_ok`), which is the
trace of the matrix over the field (`ofBit_diagonal`).

Two products of the same factors in either order need not have one size, but they have one trace,
as each is a sum over all pairs of a row and a column (`HasShape.trace_product_comm`). So a matrix
keeps its trace when it is put between an invertible matrix and the inverse
(`HasShape.trace_conjugate`). The last statement says this of the operations.
-/

namespace BitLinear.BitMatrix

variable {n r c : ℕ} {a b m p q : BitMatrix}

theorem HasShape.zipIdx_rows (hm : m.HasShape n n) :
    m.rows.zipIdx = (List.range n).map fun i => (m.rows.getD i ⟨#[]⟩, i) := by
  refine List.ext_getElem (by simp [hm.length_rows]) fun i hi _ => ?_
  rw [List.length_zipIdx] at hi
  simp [List.getElem_zipIdx, hi]

theorem HasShape.trace_eq_ok (hm : m.HasShape n n) :
    m.trace = .ok (xorBelow n fun i => m.entry i i) := by
  have hstep (sum : Bool) : ∀ entry ∈ m.rows.zipIdx,
      (do let bit ← entry.1.getBit entry.2; return sum ^^ bit) =
        (.ok (sum ^^ entry.1.testBit entry.2) : Except Error Bool) := by
    rintro ⟨row, i⟩ hmem
    obtain ⟨-, hi, -⟩ := List.mem_zipIdx hmem
    have hrow := hm.length_row row (List.fst_mem_of_mem_zipIdx hmem)
    rw [BitRow.getBit_eq_ok (by rw [hrow, ← hm.length_rows]; omega)]
    rfl
  obtain ⟨hsum, -⟩ := foldlM_eq_ok (fun _ : Bool => True) (s := false) trivial
    fun sum _ entry hentry => ⟨hstep sum entry hentry, trivial⟩
  rw [trace, hm.checkSquare_eq_ok, ok_bind, hsum, hm.zipIdx_rows, List.foldl_map]
  rfl

/-- The sum of the diagonal is the trace over the field. -/
theorem ofBit_diagonal (m : BitMatrix) (n : ℕ) :
    ofBit (xorBelow n fun i => m.entry i i) = (m.toMatrix n n).trace := by
  rw [ofBit_xorBelow]
  rfl

/-! ## Cyclic products -/

/-- The trace of a product is a sum over all pairs of a row and a column. -/
theorem HasShape.trace_product (ha : a.HasShape r c) (hb : b.HasShape c r) :
    (a.product b).trace =
      .ok (xorBelow r fun i => xorBelow c fun k => a.entry i k && b.entry k i) := by
  rw [(ha.product hb).trace_eq_ok, Except.ok.injEq, ← ofBit_inj, ofBit_xorBelow, ofBit_xorBelow]
  exact Finset.sum_congr rfl fun i _ => by rw [ha.entry_product hb i.isLt i.isLt]

theorem HasShape.trace_product_comm (ha : a.HasShape r c) (hb : b.HasShape c r) :
    (a.product b).trace = (b.product a).trace := by
  have hab := ha.product hb
  have hba := hb.product ha
  rw [hab.trace_eq_ok, hba.trace_eq_ok, Except.ok.injEq, ← ofBit_inj, ofBit_diagonal,
    ofBit_diagonal, toMatrix_product ha hb, toMatrix_product hb ha, Matrix.trace_mul_comm]

/-- A matrix keeps its trace when it is put between an invertible matrix and the inverse. -/
theorem HasShape.trace_conjugate (hm : m.HasShape n n) (hp : p.HasShape n n)
    (hinv : p.invert = .ok (some q)) : ((p.product m).product q).trace = m.trace := by
  obtain ⟨hq, -⟩ := (invert_eq_some_iff hp).mp hinv
  have hqp : q.product p = eye n :=
    Except.ok.inj ((compose_eq_ok hq hp).symm.trans (hp.compose_inverse hinv).2)
  calc ((p.product m).product q).trace
      = (q.product (p.product m)).trace := (hp.product hm).trace_product_comm hq
    _ = ((q.product p).product m).trace := by rw [hq.product_assoc hp hm]
    _ = m.trace := by rw [hqp, hm.eye_product hm.aligned]

/-- Composing two matrices in either order gives square matrices of one trace, which is the sum over
all pairs of a row and a column. A square matrix that is composed with an invertible matrix on the
left and with its inverse on the right keeps its trace, the sum of the diagonal. -/
theorem trace_cyclic (ha : a.HasShape r c) (hb : b.HasShape c r) (hm : m.HasShape n n)
    (hp : p.HasShape n n) (hinv : p.invert = .ok (some q)) :
    (∃ ab ba bit, a.compose b = .ok ab ∧ b.compose a = .ok ba ∧ ab.HasShape r r ∧
      ba.HasShape c c ∧ ab.trace = .ok bit ∧ ba.trace = .ok bit ∧
      bit = xorBelow r fun i => xorBelow c fun k => a.entry i k && b.entry k i) ∧
    ∃ pm pmq bit, p.compose m = .ok pm ∧ pm.compose q = .ok pmq ∧ pmq.trace = .ok bit ∧
      m.trace = .ok bit ∧ bit = xorBelow n fun i => m.entry i i := by
  obtain ⟨hq, -⟩ := (invert_eq_some_iff hp).mp hinv
  have hpm := hp.product hm
  refine ⟨⟨_, _, _, compose_eq_ok ha hb, compose_eq_ok hb ha, ha.product hb, hb.product ha,
    ha.trace_product hb, ?_, rfl⟩,
    ⟨_, _, _, compose_eq_ok hp hm, compose_eq_ok hpm hq, ?_, hm.trace_eq_ok, rfl⟩⟩
  · rw [← ha.trace_product_comm hb, ha.trace_product hb]
  · rw [hm.trace_conjugate hp hinv, hm.trace_eq_ok]

/-- Products of eight and of sixteen rows with trace one, and a matrix put between another, whose
elimination swaps rows, and its inverse. -/
theorem trace_cyclic_eight :
    let a : BitMatrix := ⟨List.replicate 7 ⟨#[6, 129]⟩ ++ [⟨#[255, 8]⟩], 16⟩
    let b : BitMatrix := ⟨List.replicate 15 ⟨#[1]⟩ ++ [⟨#[3]⟩], 8⟩
    let m : BitMatrix := ⟨[⟨#[3]⟩, ⟨#[5]⟩, ⟨#[6]⟩, ⟨#[0]⟩, ⟨#[16]⟩, ⟨#[9]⟩, ⟨#[7]⟩, ⟨#[1]⟩], 8⟩
    a.HasShape 8 16 ∧ b.HasShape 16 8 ∧ m.HasShape 8 8 ∧ sample.HasShape 8 8 ∧
      sample.invert = .ok (some sampleInverse) ∧
      (∃ ab ba, a.compose b = .ok ab ∧ b.compose a = .ok ba ∧ ab.trace = .ok true ∧
        ba.trace = .ok true) ∧
      ∃ pm pmq, sample.compose m = .ok pm ∧ pm.compose sampleInverse = .ok pmq ∧
        pmq.trace = m.trace := by
  intro a b m
  have ha : a.HasShape 8 16 := by decide
  have hb : b.HasShape 16 8 := by decide
  have hm : m.HasShape 8 8 := by decide
  obtain ⟨⟨ab, ba, bit, hab, hba, -, -, htrace, htrace', hbit⟩, pm, pmq, diagonal, hpm, hpmq,
    hleft, hright, -⟩ := trace_cyclic ha hb hm sample_hasShape invert_sample
  have htrue : bit = true := hbit.trans (by cbv)
  subst htrue
  exact ⟨ha, hb, hm, sample_hasShape, invert_sample, ⟨ab, ba, hab, hba, htrace, htrace'⟩, pm, pmq,
    hpm, hpmq, hleft.trans hright.symm⟩

end BitLinear.BitMatrix
