import BitLinear.BitMatrix.LinearMap
import BitLinear.Proofs.Masking
import BitLinear.Proofs.MatrixText

/-!
# Operations that do not fault

A fault is a read past the end of a row or of a list of rows, a sum or inner product of rows of two
lengths, or a row added to itself during elimination. `Faultless p result` says that the result is
no fault and, if it is a value, one with `p`; for a draw the same is said of every source. An
operation is faultless when its steps are (`Faultless.bind`, `Draw.Faultless.bind`), so there is
one statement for each operation : on well-formed matrices and on bases that keep their invariant
it does not fault, and what it makes is well formed again.
-/

namespace BitLinear

/-! ## Results -/

/-- A read past an end, or rows of two lengths combined. -/
def Error.IsFault : Error → Prop
  | .outOfBounds _ _ | .lengthMismatch _ _ => True
  | _ => False

/-- The result is a value with `p` or an error that is no fault. -/
def Faultless {α : Type} (p : α → Prop) : Except Error α → Prop
  | .ok value => p value
  | .error cause => ¬cause.IsFault

namespace Faultless

variable {α β : Type} {p : α → Prop} {q : β → Prop}

theorem of_eq_ok {result : Except Error α} {value : α} (h : result = .ok value)
    (hvalue : p value) : Faultless p result :=
  h ▸ hvalue

theorem mono {p' : α → Prop} {result : Except Error α} (h : Faultless p result)
    (himp : ∀ a, p a → p' a) : Faultless p' result := by
  cases result with
  | ok value => exact himp value h
  | error cause => exact h

theorem bind {result : Except Error α} {next : α → Except Error β} (h : Faultless p result)
    (hnext : ∀ a, p a → Faultless q (next a)) : Faultless q (result >>= next) := by
  cases result with
  | ok value => exact hnext value h
  | error cause => exact h

theorem mapM {f : α → Except Error β} : ∀ {l : List α}, (∀ a ∈ l, Faultless q (f a)) →
    Faultless (fun values => values.length = l.length ∧ ∀ b ∈ values, q b) (l.mapM f)
  | [], _ => ⟨rfl, by simp⟩
  | a :: l, h => by
    rw [List.mapM_cons]
    refine (h a List.mem_cons_self).bind fun b hb => ?_
    refine (mapM fun a ha => h a (List.mem_cons_of_mem _ ha)).bind fun values hvalues => ?_
    exact ⟨congrArg (· + 1) hvalues.1, List.forall_mem_cons.mpr ⟨hb, hvalues.2⟩⟩

theorem foldlM {f : β → α → Except Error β} : ∀ {l : List α} {b : β}, q b →
    (∀ b, q b → ∀ a ∈ l, Faultless q (f b a)) → Faultless q (l.foldlM f b)
  | [], _, hb, _ => hb
  | a :: l, b, hb, h => by
    rw [List.foldlM_cons]
    refine (h b hb a List.mem_cons_self).bind fun c hc => ?_
    exact foldlM hc fun b hb a ha => h b hb a (List.mem_cons_of_mem _ ha)

end Faultless

theorem checkAligned_faultless (bits : ℕ) :
    Faultless (fun _ => bits % 8 = 0) (checkAligned bits) := by
  by_cases h : bits % 8 = 0
  · exact .of_eq_ok (checkAligned_eq_ok h) h
  · rw [checkAligned_eq_error h]
    exact id

/-! ## Draws -/

namespace Draw

variable {α β : Type} {p : α → Prop} {q : β → Prop}

/-- Whatever the source holds, the draw does not fault. -/
def Faultless (p : α → Prop) (draw : Draw α) : Prop :=
  ∀ source, BitLinear.Faultless p (draw.runOn source).1

theorem Faultless.pure {value : α} (h : p value) : Faultless p (pure value : Draw α) :=
  fun _ => h

theorem Faultless.liftM {result : Except Error α} (h : BitLinear.Faultless p result) :
    Faultless p (liftM result : Draw α) :=
  fun _ => h

theorem Faultless.throw {cause : Error} (h : ¬cause.IsFault) :
    Faultless p (throw cause : Draw α) :=
  fun _ => h

theorem Faultless.bind {draw : Draw α} {next : α → Draw β} (h : draw.Faultless p)
    (hnext : ∀ a, p a → (next a).Faultless q) : (draw >>= next).Faultless q := by
  intro source
  have hdraw := h source
  rw [runOn_bind]
  rcases hrun : draw.runOn source with ⟨cause | value, rest⟩
  · rw [hrun] at hdraw
    exact hdraw
  · rw [hrun] at hdraw
    exact hnext value hdraw rest

/-- A source that runs out is no fault. -/
theorem bytes_faultless (count : ℕ) : (bytes count).Faultless (·.length = count) := by
  intro source
  rw [runOn_bytes]
  cases htake : source.take? count with
  | none => exact id
  | some taken => exact ByteSource.length_of_take? htake

end Draw

/-! ## Rows -/

namespace BitRow

theorem getBit_faultless {r : BitRow} {i : ℕ} (h : i < r.length) :
    Faultless (fun _ => True) (r.getBit i) :=
  .of_eq_ok (getBit_eq_ok h) trivial

theorem setBit_faultless {r : BitRow} {i : ℕ} (value : Bool) (h : i < r.length) :
    Faultless (·.length = r.length) (r.setBit i value) := by
  obtain ⟨written, hwrite, hlen, -⟩ := setBit_eq_ok value h
  exact .of_eq_ok hwrite hlen

theorem add_faultless {a b : BitRow} (h : a.length = b.length) :
    Faultless (·.length = a.length) (a.add b) :=
  .of_eq_ok (add_eq_ok h) (length_sum h)

theorem mul_faultless {a b : BitRow} (h : a.length = b.length) :
    Faultless (·.length = a.length) (a.mul b) :=
  .of_eq_ok (mul_eq_ok h) (length_product h)

theorem dot_faultless {a b : BitRow} (h : a.length = b.length) :
    Faultless (fun _ => True) (a.dot b) :=
  .of_eq_ok (dot_eq_ok h) trivial

theorem zero_faultless (bits : ℕ) : Faultless (·.length = bits) (zero bits) := by
  rw [zero]
  exact (checkAligned_faultless bits).bind fun _ h => length_zeros h

theorem unit_faultless (bits index : ℕ) : Faultless (·.length = bits) (unit bits index) := by
  rw [unit]
  refine (zero_faultless bits).bind fun row hrow => ?_
  split_ifs with h
  · exact (setBit_faultless true (hrow.symm ▸ h)).mono fun written hlen => hlen.trans hrow
  · exact id

theorem ofBits_faultless (bits : List Bool) :
    Faultless (·.length = bits.length) (ofBits bits) := by
  by_cases h : bits.length % 8 = 0
  · exact .of_eq_ok (ofBits_eq_ok h) (length_pack h)
  · rw [ofBits, zero, checkAligned_eq_error h]
    exact id

theorem ofDigits_faultless (text : List Char) : Faultless (fun _ => True) (ofDigits text) := by
  unfold ofDigits
  split
  · trivial
  · exact id

theorem random_faultless (bits : ℕ) : (random bits).Faultless (·.length = bits) := by
  rw [random]
  refine (Draw.Faultless.liftM (checkAligned_faultless bits)).bind fun _ hbits => ?_
  refine (Draw.bytes_faultless _).bind fun bytes hbytes => ?_
  exact .pure (length_ofBytes hbits hbytes)

theorem randomList_faultless (bits : ℕ) : ∀ count, (randomList bits count).Faultless
    fun rows => rows.length = count ∧ ∀ row ∈ rows, row.length = bits
  | 0 => .pure ⟨rfl, by simp⟩
  | count + 1 => by
    rw [randomList]
    refine (random_faultless bits).bind fun row hrow => ?_
    refine (randomList_faultless bits count).bind fun rows hrows => .pure ?_
    exact ⟨congrArg (· + 1) hrows.1, List.forall_mem_cons.mpr ⟨hrow, hrows.2⟩⟩

end BitRow

/-! ## Making matrices -/

namespace BitMatrix

variable {m a b : BitMatrix}

theorem zero_faultless (n : ℕ) : Faultless WellFormed (zero n) := by
  rw [zero]
  refine (BitRow.zero_faultless n).bind fun row hrow => ⟨?_, fun r hr => ?_⟩
  · rw [← hrow, BitRow.length_mod_eight]
  · rw [List.eq_of_mem_replicate hr, hrow]

theorem identity_faultless (n : ℕ) : Faultless WellFormed (identity n) := by
  rw [identity]
  refine (checkAligned_faultless n).bind fun _ hn => ?_
  refine (Faultless.mapM fun i _ => BitRow.unit_faultless n i).bind fun rows hrows => ?_
  exact ⟨hn, hrows.2⟩

theorem full_faultless (n : ℕ) : Faultless WellFormed (full n) := by
  rw [full]
  refine (checkAligned_faultless n).bind fun _ hn => ⟨hn, fun row hrow => ?_⟩
  rw [List.eq_of_mem_replicate hrow, BitRow.length, Array.size_replicate]
  exact Nat.mul_div_cancel' (Nat.dvd_of_mod_eq_zero hn)

theorem ofRows_faultless (rows : List BitRow) : Faultless WellFormed (ofRows rows) := by
  cases h : ofRows rows with
  | ok m => exact (ofRows_eq_ok_iff.mp h).1
  | error cause =>
    unfold ofRows at h
    dsimp only at h
    split at h
    · obtain rfl := Except.error.inj h
      exact id
    · cases h

theorem parse_faultless (text : String) : Faultless WellFormed (parse text) := by
  rw [parse, ofDigitLines]
  exact (Faultless.mapM fun line _ => BitRow.ofDigits_faultless line).bind fun rows _ =>
    ofRows_faultless rows

/-! ## Operations on matrices -/

theorem checkSquare_faultless (m : BitMatrix) :
    Faultless (fun n => m.rows.length = n ∧ m.cols = n) m.checkSquare := by
  unfold checkSquare
  split_ifs with h
  · exact ⟨h, rfl⟩
  · exact id

theorem apply_faultless (hm : m.WellFormed) (input : BitRow) :
    Faultless (·.length = m.rows.length) (m.apply input) := by
  unfold apply
  split_ifs with h
  · refine (Faultless.mapM (q := fun _ => True) fun row hrow => ?_).bind fun bits hbits => ?_
    · exact BitRow.dot_faultless ((hm.2 row hrow).trans h.symm)
    · exact (BitRow.ofBits_faultless bits).mono fun out hout => hout.trans hbits.1
  · exact id

theorem applyToBytes_faultless (hm : m.WellFormed) (input : List Byte) :
    Faultless (fun _ => True) (m.applyToBytes input) := by
  rw [applyToBytes]
  exact (apply_faultless hm _).bind fun _ _ => trivial

theorem add_faultless (ha : a.WellFormed) (hb : b.WellFormed) :
    Faultless WellFormed (a.add b) := by
  unfold add
  split_ifs with h
  · have hcols : b.cols = a.cols := (congrArg Prod.snd h).symm
    refine (Faultless.mapM (q := (·.length = a.cols)) ?_).bind fun rows hrows =>
      ⟨ha.1, hrows.2⟩
    rintro ⟨r, s⟩ hmem
    have hr := ha.2 r (List.of_mem_zip hmem).1
    have hs := hb.2 s (List.of_mem_zip hmem).2
    have hlen : r.length = s.length := by rw [hr, hs, hcols]
    exact (BitRow.add_faultless hlen).mono fun total htotal => htotal.trans hr
  · exact id

theorem compose_faultless (ha : a.WellFormed) (hb : b.WellFormed) :
    Faultless WellFormed (a.compose b) := by
  unfold compose
  split_ifs with h
  · refine (Faultless.mapM (q := (·.length = b.cols)) fun row hrow => ?_).bind
      fun rows hrows => ⟨hb.1, hrows.2⟩
    have hlen : b.rows.length ≤ row.length := by rw [ha.2 row hrow, h]
    obtain ⟨hok, hwidth⟩ := BitRow.combine_eq_ok hb.1 hlen hb.2
    exact .of_eq_ok hok hwidth
  · exact id

theorem column_faultless (hm : m.WellFormed) {j : ℕ} (hj : j < m.cols) :
    Faultless (·.length = m.rows.length) (m.column j) := by
  rw [column]
  refine (Faultless.mapM (q := fun _ => True) fun row hrow => ?_).bind fun bits hbits => ?_
  · exact BitRow.getBit_faultless (hj.trans_eq (hm.2 row hrow).symm)
  · exact (BitRow.ofBits_faultless bits).mono fun out hout => hout.trans hbits.1

theorem transpose_faultless (hm : m.WellFormed) : Faultless WellFormed m.transpose := by
  rw [transpose]
  refine (checkAligned_faultless _).bind fun _ hrows => ?_
  refine (Faultless.mapM fun j hj => column_faultless hm (List.mem_range.mp hj)).bind
    fun rows hlen => ?_
  exact ⟨hrows, hlen.2⟩

theorem trace_faultless (hm : m.WellFormed) : Faultless (fun _ => True) m.trace := by
  rw [trace]
  refine m.checkSquare_faultless.bind fun n hn => Faultless.foldlM trivial ?_
  rintro sum - ⟨row, i⟩ hmem
  have hi : i < row.length := by
    obtain ⟨-, hi, -⟩ := List.mem_zipIdx hmem
    rw [hm.2 row (List.fst_mem_of_mem_zipIdx hmem), hn.2, ← hn.1]
    omega
  exact (BitRow.getBit_faultless hi).bind fun _ _ => trivial

theorem invert_faultless (hm : m.WellFormed) :
    Faultless (fun inverse => ∀ b ∈ inverse, b.WellFormed) m.invert := by
  by_cases hsquare : m.rows.length = m.cols
  · have hshape : m.HasShape m.cols m.cols := hm.hasShape_square hsquare
    rcases invert_cases hshape with ⟨b, hb, hinverse, -⟩ | ⟨hnone, -⟩
    · exact .of_eq_ok hb fun _ hmem => Option.some.inj hmem ▸ hinverse.1
    · exact .of_eq_ok hnone fun _ hmem => by simp at hmem
  · rw [invert, checkSquare_eq_error hsquare]
    exact id

theorem isInvertible_faultless (hm : m.WellFormed) :
    Faultless (fun _ => True) m.isInvertible := by
  rw [isInvertible]
  exact (invert_faultless hm).bind fun _ _ => trivial

/-! ## Linear maps -/

/-- A map on packed bytes that carries a state and keeps the number of bytes, as a map that changes
a buffer in place does. -/
structure BufferMap (σ : Type) where
  /-- The bytes after the map, and its state after it. -/
  run : List Byte → StateM σ (List Byte)
  length_run : ∀ bytes state, (run bytes state).1.length = bytes.length

variable {σ : Type}

theorem unitImage_faultless (bits : ℕ) (map : BufferMap σ) (j : ℕ) (state : σ) :
    Faultless (·.1.length = bits) ((unitImage bits map.run j).run state) := by
  rw [unitImage, StateT.run_bind]
  refine Faultless.bind (p := fun input : BitRow × σ => input.1.length = bits) ?_ ?_
  · exact (BitRow.unit_faultless bits j).bind fun row hrow => hrow
  rintro ⟨input, state⟩ hinput
  have hlen : 8 * (map.run input.toBytes state).1.length = bits := by
    rw [map.length_run, ← BitRow.length_eq_toBytes, hinput]
  rw [StateT.run_bind, StateT.run_modifyGet]
  refine Faultless.bind (p := fun image : List Byte × σ => 8 * image.1.length = bits) hlen ?_
  rintro ⟨image, state⟩ himage
  dsimp only
  rw [if_pos himage]
  exact himage

theorem unitImages_faultless (bits : ℕ) (map : BufferMap σ) : ∀ (positions : List ℕ) (state : σ),
    Faultless (fun images => images.1.length = positions.length ∧
        ∀ image ∈ images.1, image.length = bits)
      ((positions.mapM (unitImage bits map.run)).run state)
  | [], _ => ⟨rfl, by simp⟩
  | j :: positions, state => by
    rw [List.mapM_cons, StateT.run_bind]
    refine (unitImage_faultless bits map j state).bind fun image himage => ?_
    rw [StateT.run_bind]
    refine (unitImages_faultless bits map positions image.2).bind fun images himages => ?_
    exact ⟨congrArg (· + 1) himages.1, List.forall_mem_cons.mpr ⟨himage, himages.2⟩⟩

theorem ofStatefulMap_faultless (bits : ℕ) (map : BufferMap σ) (state : σ) :
    Faultless (·.1.WellFormed) ((ofStatefulMap bits map.run).run state) := by
  rw [ofStatefulMap, StateT.run_bind]
  refine Faultless.bind (p := fun _ => bits % 8 = 0) ?_ fun start hbits => ?_
  · exact (checkAligned_faultless bits).bind fun _ h => h
  rw [StateT.run_bind]
  refine (unitImages_faultless bits map _ start.2).bind fun images himages => ?_
  have hcolumns : (⟨images.1, bits⟩ : BitMatrix).WellFormed := ⟨hbits, himages.2⟩
  exact (transpose_faultless hcolumns).bind fun m hm => hm

end BitMatrix

/-! ## Bases -/

namespace RowBasis

variable {n : ℕ} {basis : RowBasis}

theorem empty_faultless (n : ℕ) : Faultless (Invariant n) (empty n) := by
  rw [empty]
  exact (checkAligned_faultless n).bind fun _ hn => invariant_empty hn

theorem Invariant.wellFormed_matrix (h : Invariant n basis) : basis.matrix.WellFormed :=
  ⟨(congrArg (· % 8) h.dimension_eq).trans h.aligned, fun row hrow =>
    (h.length_accepted row hrow).trans h.dimension_eq.symm⟩

theorem Invariant.inverse_faultless (h : Invariant n basis) :
    Faultless BitMatrix.WellFormed basis.inverse := by
  by_cases hc : basis.isComplete = true
  · obtain ⟨b, hb, hshape, -⟩ := h.inverse_eq_ok (h.isComplete_iff.mp hc)
    exact .of_eq_ok hb hshape.1
  · rw [inverse, if_neg hc]
    exact id

/-- A row of the width of the basis is tested without a fault. -/
theorem Invariant.isInSpan_faultless (h : Invariant n basis) {row : BitRow}
    (hrow : row.length = n) : Faultless (fun _ => True) (basis.isInSpan row) := by
  obtain ⟨answer, hanswer, -⟩ := h.isInSpan_eq_ok hrow
  exact .of_eq_ok hanswer trivial

theorem Invariant.insert_faultless (h : Invariant n basis) {row : BitRow}
    (hrow : row.length = n) :
    Faultless (fun result => Invariant n result.2) (basis.insert row) := by
  rcases h.offer_cases row with ⟨hne, -⟩ | ⟨-, -, heq⟩ | ⟨-, -, next, heq, -, hnext⟩
  · exact absurd hrow hne
  · exact .of_eq_ok (insert_eq_ok_iff.mpr heq) h
  · exact .of_eq_ok (insert_eq_ok_iff.mpr heq) hnext

/-- A row of the width of the basis is offered without a fault. -/
theorem Invariant.offer_faultless (h : Invariant n basis) {row : BitRow} (hrow : row.length = n) :
    Faultless (fun _ => True) (basis.offer row).1 := by
  rcases h.offer_cases row with ⟨hne, -⟩ | ⟨-, -, heq⟩ | ⟨-, -, next, heq, -⟩
  · exact absurd hrow hne
  · rw [heq]
    trivial
  · rw [heq]
    trivial

theorem Invariant.novelWithin_faultless (h : Invariant n basis) : ∀ draws : ℕ,
    (basis.novelWithin draws).Faultless (·.length = n)
  | 0 => .throw id
  | draws + 1 => by
    rw [novelWithin, h.dimension_eq]
    refine (BitRow.random_faultless n).bind fun row hrow => ?_
    refine (Draw.Faultless.liftM (h.isInSpan_faultless hrow)).bind fun spanned _ => ?_
    split
    · exact h.novelWithin_faultless draws
    · exact .pure hrow

theorem Invariant.novel_faultless (h : Invariant n basis) :
    basis.novel.Faultless (·.length = n) := by
  intro source
  cases hc : basis.isComplete with
  | true =>
    rw [novel, hc]
    exact id
  | false =>
    rw [runOn_novel hc]
    exact h.novelWithin_faultless _ source

theorem Invariant.fill_faultless : ∀ {basis : RowBasis}, Invariant n basis → ∀ rounds : ℕ,
    (basis.fill rounds).Faultless (Invariant n)
  | _, h, 0 => .pure h
  | basis, h, rounds + 1 => by
    rw [fill]
    split_ifs with hc
    · exact .pure h
    · refine h.novel_faultless.bind fun row hrow => ?_
      refine (Draw.Faultless.liftM (h.insert_faultless hrow)).bind fun result hresult => ?_
      exact hresult.fill_faultless rounds

end RowBasis

/-! ## Drawing matrices -/

namespace BitMatrix

theorem uniform_faultless (n : ℕ) : (uniform n).Faultless WellFormed := by
  rw [uniform]
  refine (BitRow.randomList_faultless n n).bind fun rows hrows => .pure ⟨?_, hrows.2⟩
  -- a width that does not fill whole bytes has no rows to draw
  cases rows with
  | nil => rw [← hrows.1]; rfl
  | cons row rows => exact hrows.2 row List.mem_cons_self ▸ row.length_mod_eight

theorem firstInvertible_faultless (n : ℕ) : ∀ attempts, (firstInvertible n attempts).Faultless
    fun drawn => ∀ pair ∈ drawn, pair.1.WellFormed ∧ pair.2.WellFormed
  | 0 => .pure (by simp)
  | attempts + 1 => by
    rw [firstInvertible]
    refine (uniform_faultless n).bind fun candidate hcandidate => ?_
    refine (Draw.Faultless.liftM (invert_faultless hcandidate)).bind fun inverse hinverse => ?_
    cases inverse with
    | some b => exact .pure (by simpa using ⟨hcandidate, hinverse b rfl⟩)
    | none => exact firstInvertible_faultless n attempts

theorem rejectionSample_faultless (n maxAttempts : ℕ) : (rejectionSample n maxAttempts).Faultless
    fun pair => pair.1.WellFormed ∧ pair.2.WellFormed := by
  rw [rejectionSample]
  refine (firstInvertible_faultless n maxAttempts).bind fun drawn hdrawn => ?_
  cases drawn with
  | some pair => exact .pure (hdrawn pair rfl)
  | none => exact .throw id

theorem randomWithLimit_faultless (n maxAttempts : ℕ) :
    (randomWithLimit n maxAttempts).Faultless WellFormed := by
  rw [randomWithLimit]
  exact (rejectionSample_faultless n maxAttempts).bind fun _ hpair => .pure hpair.1

theorem randomInvertible_faultless (n : ℕ) : (randomInvertible n).Faultless
    fun pair => pair.1.WellFormed ∧ pair.2.WellFormed := by
  rw [randomInvertible]
  refine (Draw.Faultless.liftM (RowBasis.empty_faultless n)).bind fun start hstart => ?_
  refine (hstart.fill_faultless n).bind fun basis hbasis => ?_
  refine (Draw.Faultless.liftM hbasis.inverse_faultless).bind fun inverse hinverse => ?_
  exact .pure ⟨hbasis.wellFormed_matrix, hinverse⟩

end BitMatrix

/-! ## Generators -/

namespace Generator

theorem invertibleDraw_faultless (config : GeneratorConfig) (n : ℕ) :
    (invertibleDraw config n).Faultless fun pair => pair.1.WellFormed ∧ pair.2.WellFormed := by
  rcases config with ⟨_ | _, maxAttempts⟩
  · exact BitMatrix.randomInvertible_faultless n
  · exact BitMatrix.rejectionSample_faultless n maxAttempts

theorem randomInvertible_faultless (generator : Generator) (n : ℕ) :
    Faultless (fun pair => pair.1.WellFormed ∧ pair.2.WellFormed)
      (generator.run (randomInvertible n)).1 := by
  rw [run_randomInvertible, run_draw]
  exact invertibleDraw_faultless generator.config n generator.source

theorem randomMatrix_faultless (generator : Generator) (n : ℕ) :
    Faultless BitMatrix.WellFormed (generator.run (randomMatrix n)).1 := by
  have hpair := generator.randomInvertible_faultless n
  rw [randomMatrix, run_bind]
  rcases hrun : generator.run (randomInvertible n) with ⟨cause | pair, rest⟩
  · rw [hrun] at hpair
    exact hpair
  · rw [hrun] at hpair
    exact hpair.1

theorem mask_faultless (generator : Generator) {inner : BitMatrix} (hinner : inner.WellFormed) :
    Faultless (fun masking => masking.mask.WellFormed ∧ masking.unmask.WellFormed ∧
      masking.masked.WellFormed) (generator.run (mask inner)).1 := by
  have hpair := generator.randomInvertible_faultless inner.rows.length
  rw [run_mask]
  rcases hrun : generator.run (randomInvertible inner.rows.length) with ⟨cause | ⟨m, u⟩, rest⟩
  · rw [hrun] at hpair
    exact hpair
  · rw [hrun] at hpair
    have hmasked := BitMatrix.compose_faultless hpair.1 hinner
    dsimp only
    cases hcompose : m.compose inner with
    | ok masked => exact ⟨hpair.1, hpair.2, by rwa [hcompose] at hmasked⟩
    | error cause => rwa [hcompose] at hmasked

end Generator

end BitLinear
