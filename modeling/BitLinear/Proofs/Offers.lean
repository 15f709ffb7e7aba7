import BitLinear.Proofs.Growth
import Mathlib.LinearAlgebra.Dimension.Constructions
import Mathlib.LinearAlgebra.FiniteDimensional.Basic

/-!
# What a run of offers comes to

Rows of any widths are offered one after the other. `taken` are those that were answered with
`true`. The rank of a basis is the dimension of what its accepted rows span
(`Invariant.rank_eq_finrank`), so a basis is complete exactly when they span the space
(`Invariant.isComplete_iff_rowSpan`).

`Greedy n start rows` says that each row is answered by what was offered before it alone, that the
rows that were turned down leave no trace in the basis, that as many rows are accepted as can be
independent, and that a complete basis stays as it is. The main statement is that it holds of every
run from the basis without rows.
-/

namespace BitLinear

namespace BitRow

/-- The rows of `n` bits. -/
def ofLength (n : ℕ) (rows : List BitRow) : List BitRow :=
  rows.filter fun row => row.length = n

/-- A choice of the rows adds up to `row`. -/
def IsSum (n : ℕ) (rows : List BitRow) (row : BitRow) : Prop :=
  ∃ chosen, List.Sublist chosen rows ∧ total n chosen = row

variable {n : ℕ} {rows : List BitRow} {row : BitRow}

theorem length_of_mem_ofLength (h : row ∈ ofLength n rows) : row.length = n := by
  simpa using (List.mem_filter.mp h).2

theorem ofLength_eq_self (h : ∀ row ∈ rows, row.length = n) : ofLength n rows = rows :=
  List.filter_eq_self.mpr (by simpa using h)

/-- Independent rows are a basis of their span. -/
theorem Independent.finrank_rowSpan (h : Independent n rows) (hn : n % 8 = 0)
    (hrows : ∀ row ∈ rows, row.length = n) :
    Module.finrank (ZMod 2) (rowSpan n rows) = rows.length := by
  rw [rowSpan, ← range_toVec_get, finrank_span_eq_card ((independent_iff hn hrows).mp h),
    Fintype.card_fin]

end BitRow

namespace RowBasis

variable {n : ℕ} {basis : RowBasis} {row : BitRow}

/-! ## Rank -/

theorem Invariant.rank_eq_finrank (h : Invariant n basis) :
    basis.rank = Module.finrank (ZMod 2) (BitRow.rowSpan n basis.accepted) :=
  (h.independent.finrank_rowSpan h.aligned h.length_accepted).symm

theorem Invariant.isComplete_iff_rowSpan (h : Invariant n basis) :
    basis.isComplete = true ↔ BitRow.rowSpan n basis.accepted = ⊤ := by
  rw [h.isComplete_iff]
  refine ⟨h.rowSpan_eq_top, fun htop => ?_⟩
  rw [h.rank_eq_finrank, htop, finrank_top, Module.finrank_fin_fun]

/-! ## Runs -/

/-- Rows that are offered to the basis without rows are spanned by those it accepts. -/
theorem rowSpan_accepted_offerAll (hn : n % 8 = 0) {rows : List BitRow}
    (hrows : ∀ row ∈ rows, row.length = n) :
    BitRow.rowSpan n (offerAll ⟨n, [], []⟩ rows).2.accepted = BitRow.rowSpan n rows := by
  have hspan := (invariant_empty hn).rowSpan_offerAll rows
  rwa [List.nil_append, ← BitRow.ofLength, BitRow.ofLength_eq_self hrows] at hspan

theorem offerAll_append : ∀ (basis : RowBasis) (xs ys : List BitRow),
    basis.offerAll (xs ++ ys) = ((basis.offerAll xs).1 ++ ((basis.offerAll xs).2.offerAll ys).1,
      ((basis.offerAll xs).2.offerAll ys).2)
  | _, [], _ => rfl
  | basis, row :: xs, ys => by
    simp only [List.cons_append, offerAll, offerAll_append (basis.offer row).2 xs ys]

theorem length_offerAll : ∀ (basis : RowBasis) (rows : List BitRow),
    (basis.offerAll rows).1.length = rows.length
  | _, [] => rfl
  | basis, row :: rows => congrArg (· + 1) (length_offerAll (basis.offer row).2 rows)

/-- A row of the width of the basis is never refused. -/
theorem Invariant.exists_eq_ok_of_mem_offerAll {answer : Except Error Bool} :
    ∀ {basis : RowBasis}, Invariant n basis → ∀ {rows : List BitRow},
      (∀ row ∈ rows, row.length = n) → answer ∈ (basis.offerAll rows).1 →
        ∃ fresh, answer = .ok fresh
  | basis, h, row :: rows, hrows, hmem => by
    obtain ⟨hrow, hrest⟩ := List.forall_mem_cons.mp hrows
    have hnext : Invariant n (basis.offer row).2 := h.offerAll [row]
    rcases List.mem_cons.mp hmem with rfl | hlater
    · rcases h.offer_cases row with ⟨hne, -⟩ | ⟨-, -, heq⟩ | ⟨-, -, next, heq, -⟩
      · exact absurd hrow hne
      · exact ⟨false, congrArg Prod.fst heq⟩
      · exact ⟨true, congrArg Prod.fst heq⟩
    · exact hnext.exists_eq_ok_of_mem_offerAll hrest hlater

/-- Whether an offer was answered with `true`. -/
def isAcceptance : Except Error Bool → Bool
  | .ok fresh => fresh
  | .error _ => false

/-- The rows that were answered with `true`. -/
def taken : List BitRow → List (Except Error Bool) → List BitRow
  | row :: rows, answer :: answers =>
    if isAcceptance answer then row :: taken rows answers else taken rows answers
  | _, _ => []

theorem taken_sublist : ∀ (rows : List BitRow) (answers : List (Except Error Bool)),
    List.Sublist (taken rows answers) rows
  | [], _ => List.Sublist.refl []
  | row :: rows, [] => List.nil_sublist _
  | row :: rows, answer :: answers => by
    rw [taken]
    split
    · exact (taken_sublist rows answers).cons_cons row
    · exact (taken_sublist rows answers).cons row

/-- The rows that are taken are the ones accepted, and offering them alone leads to the same
basis. -/
theorem Invariant.taken_offerAll : ∀ {basis : RowBasis}, Invariant n basis →
    ∀ rows : List BitRow,
      (basis.offerAll rows).2.accepted = basis.accepted ++ taken rows (basis.offerAll rows).1 ∧
        (basis.offerAll (taken rows (basis.offerAll rows).1)).2 = (basis.offerAll rows).2
  | basis, _, [] => ⟨(List.append_nil _).symm, rfl⟩
  | basis, h, row :: rows => by
    rcases h.offer_cases row with ⟨-, heq⟩ | ⟨-, -, heq⟩ | ⟨-, -, next, heq, hacc, hnext⟩
    · have hrest := h.taken_offerAll rows
      simpa [RowBasis.offerAll, heq, taken, isAcceptance] using hrest
    · have hrest := h.taken_offerAll rows
      simpa [RowBasis.offerAll, heq, taken, isAcceptance] using hrest
    · obtain ⟨haccepted, hreplay⟩ := hnext.taken_offerAll rows
      simp only [RowBasis.offerAll, heq, taken, isAcceptance, if_true]
      exact ⟨by rw [haccepted, hacc, ← List.append_cons], hreplay⟩

theorem accepted_offerAll_sublist (hn : n % 8 = 0) (rows : List BitRow) :
    List.Sublist (offerAll ⟨n, [], []⟩ rows).2.accepted rows := by
  have htaken := ((invariant_empty hn).taken_offerAll rows).1
  rw [List.nil_append] at htaken
  exact htaken ▸ taken_sublist _ _

/-! ## Greedy runs -/

/-- The answer to a row that is offered after `earlier` ones, whether these were accepted or not. -/
def Fits (n : ℕ) (earlier : List BitRow) (row : BitRow) (answer : Except Error Bool) : Prop :=
  if row.length = n then
    ∃ fresh, answer = .ok fresh ∧
      (fresh = true ↔ ¬BitRow.IsSum n (BitRow.ofLength n earlier) row)
  else answer = .error (.lengthMismatch n row.length)

/-- What a run of offers comes to. -/
structure Greedy (n : ℕ) (start : RowBasis) (rows : List BitRow) : Prop where
  /-- Every row is answered, by what was offered before it alone. -/
  answer : (start.offerAll rows).1.length = rows.length ∧
    ∀ k (hk : k < rows.length), ∃ answer, (start.offerAll rows).1[k]? = some answer ∧
      Fits n (rows.take k) rows[k] answer
  /-- The accepted rows are those answered with `true`, in order. -/
  accepted_eq : (start.offerAll rows).2.accepted = taken rows (start.offerAll rows).1
  /-- The other rows leave no trace. -/
  replay : (start.offerAll (taken rows (start.offerAll rows).1)).2 = (start.offerAll rows).2
  /-- No more rows could be independent. -/
  rank : IsGreatest {count | ∃ chosen, List.Sublist chosen (BitRow.ofLength n rows) ∧
    BitRow.Independent n chosen ∧ chosen.length = count} (start.offerAll rows).2.rank
  /-- A complete basis stays as it is and turns every row of its width down. -/
  complete : (start.offerAll rows).2.isComplete = true → ∀ later : List BitRow,
    (start.offerAll (rows ++ later)).2 = (start.offerAll rows).2 ∧
      ∀ row : BitRow, row.length = n →
        (start.offerAll rows).2.offer row = (.ok false, (start.offerAll rows).2)

/-- The answer to a row is determined by the rows of its width that were offered before. -/
theorem Invariant.fits_offer (h : Invariant n basis) {earlier : List BitRow}
    (hspan : BitRow.rowSpan n basis.accepted = BitRow.rowSpan n (BitRow.ofLength n earlier))
    (row : BitRow) : Fits n earlier row (basis.offer row).1 := by
  have hsum (hrow : row.length = n) : row.toVec n ∈ BitRow.rowSpan n basis.accepted ↔
      BitRow.IsSum n (BitRow.ofLength n earlier) row := by
    rw [hspan]
    exact BitRow.toVec_mem_rowSpan_iff h.aligned
      (fun _ hr => BitRow.length_of_mem_ofLength hr) hrow
  rw [Fits]
  rcases h.offer_cases row with ⟨hne, heq⟩ | ⟨hrow, hmem, heq⟩ | ⟨hrow, hout, next, heq, -⟩
  · rw [if_neg hne, heq]
  · rw [if_pos hrow, heq, ← hsum hrow]
    exact ⟨false, rfl, by simpa using hmem⟩
  · rw [if_pos hrow, heq, ← hsum hrow]
    exact ⟨true, rfl, by simpa using hout⟩

/-- A complete basis turns every row of its width down and no row changes it. -/
theorem Invariant.offer_of_isComplete (h : Invariant n basis) (hc : basis.isComplete = true)
    (row : BitRow) :
    (basis.offer row).2 = basis ∧ (row.length = n → basis.offer row = (.ok false, basis)) := by
  have htop := h.isComplete_iff_rowSpan.mp hc
  rcases h.offer_cases row with ⟨hne, heq⟩ | ⟨-, -, heq⟩ | ⟨-, hout, -⟩
  · exact ⟨by rw [heq], fun hrow => absurd hrow hne⟩
  · exact ⟨by rw [heq], fun _ => heq⟩
  · exact absurd (htop ▸ Submodule.mem_top) hout

theorem Invariant.offerAll_of_isComplete (h : Invariant n basis) (hc : basis.isComplete = true) :
    ∀ later : List BitRow, (basis.offerAll later).2 = basis
  | [] => rfl
  | row :: later => by
    change ((basis.offer row).2.offerAll later).2 = basis
    rw [(h.offer_of_isComplete hc row).1]
    exact h.offerAll_of_isComplete hc later

/-- No choice of independent rows among those offered is larger than the rank. -/
theorem Invariant.isGreatest_rank (h : Invariant n basis) {rows : List BitRow}
    (hsub : List.Sublist basis.accepted rows)
    (hspan : BitRow.rowSpan n basis.accepted = BitRow.rowSpan n (BitRow.ofLength n rows)) :
    IsGreatest {count | ∃ chosen, List.Sublist chosen (BitRow.ofLength n rows) ∧
      BitRow.Independent n chosen ∧ chosen.length = count} basis.rank := by
  refine ⟨⟨basis.accepted, ?_, h.independent, rfl⟩, ?_⟩
  · have hfilter := hsub.filter fun row => row.length = n
    rwa [List.filter_eq_self.mpr (by simpa using h.length_accepted)] at hfilter
  · rintro _ ⟨chosen, hchosen, hind, rfl⟩
    have hlen : ∀ row ∈ chosen, row.length = n := fun row hrow =>
      BitRow.length_of_mem_ofLength (hchosen.subset hrow)
    calc chosen.length = Module.finrank (ZMod 2) (BitRow.rowSpan n chosen) :=
          (hind.finrank_rowSpan h.aligned hlen).symm
      _ ≤ Module.finrank (ZMod 2) (BitRow.rowSpan n (BitRow.ofLength n rows)) :=
          Submodule.finrank_mono (BitRow.rowSpan_mono hchosen.subset)
      _ = basis.rank := by rw [h.rank_eq_finrank, hspan]

/-- Every run of offers from the basis without rows selects greedily. -/
theorem greedy_offerAll (hn : n % 8 = 0) (rows : List BitRow) :
    ∃ start, empty n = .ok start ∧ Greedy n start rows := by
  have hempty := invariant_empty hn
  have hspan (earlier : List BitRow) :
      BitRow.rowSpan n (offerAll ⟨n, [], []⟩ earlier).2.accepted =
        BitRow.rowSpan n (BitRow.ofLength n earlier) := hempty.rowSpan_offerAll earlier
  obtain ⟨haccepted, hreplay⟩ := hempty.taken_offerAll rows
  rw [List.nil_append] at haccepted
  have hlast := hempty.offerAll rows
  refine ⟨_, empty_eq_ok hn, ⟨length_offerAll _ rows, fun k hk => ?_⟩, haccepted, hreplay,
    hlast.isGreatest_rank (haccepted ▸ taken_sublist _ _) (hspan rows), fun hc later =>
      ⟨?_, fun row => (hlast.offer_of_isComplete hc row).2⟩⟩
  · have hsplit : rows = rows.take k ++ rows[k] :: rows.drop (k + 1) := by simp
    have hfits := (hempty.offerAll (rows.take k)).fits_offer (hspan _) rows[k]
    refine ⟨_, ?_, hfits⟩
    have hlen : (offerAll ⟨n, [], []⟩ (rows.take k)).1.length = k := by
      rw [length_offerAll, List.length_take, Nat.min_eq_left hk.le]
    rw [congrArg (offerAll _) hsplit, offerAll_append, List.getElem?_append_right hlen.le, hlen,
      Nat.sub_self]
    rfl
  · rw [offerAll_append]
    exact hlast.offerAll_of_isComplete hc later

/-- Of five rows the first and the last are accepted : one is of another width, one repeats and
one is zero. -/
theorem greedy_offerAll_eight : 8 % 8 = 0 ∧ ∃ start, empty 8 = .ok start ∧
    (start.offerAll [⟨#[6]⟩, ⟨#[1, 2]⟩, ⟨#[6]⟩, ⟨#[0]⟩, ⟨#[5]⟩]).1 =
      [.ok true, .error (.lengthMismatch 8 16), .ok false, .ok false, .ok true] ∧
    Greedy 8 start [⟨#[6]⟩, ⟨#[1, 2]⟩, ⟨#[6]⟩, ⟨#[0]⟩, ⟨#[5]⟩] := by
  obtain ⟨start, hstart, hgreedy⟩ :=
    greedy_offerAll (n := 8) rfl [⟨#[6]⟩, ⟨#[1, 2]⟩, ⟨#[6]⟩, ⟨#[0]⟩, ⟨#[5]⟩]
  obtain rfl : ⟨8, [], []⟩ = start := Except.ok.inj ((empty_eq_ok rfl).symm.trans hstart)
  exact ⟨rfl, _, hstart, by decide +kernel, hgreedy⟩

end RowBasis

end BitLinear
