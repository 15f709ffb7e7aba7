import BitLinear.Proofs.Filling
import Mathlib

/-!
# Drawing row by row selects greedily

A script is read as rows (`blocks`), and `fresh` keeps those that are no sum of the rows before
them. Offering rows to a basis accepts exactly the fresh ones (`Invariant.accepted_offerAll`), and
the row that completes a basis is fresh (`Invariant.exists_last_of_completes`).

`Visits` are the states that filling a basis goes through. Whatever the source is, a row that is
drawn in such a state is accepted (`Invariant.offer_of_novel`), and filling ends in a complete
basis or with a draw that fails (`Invariant.fill_cases`). The last statement describes a whole run
on a script : when it succeeds, which rows it answers with, what it takes, and how it fails.
-/

namespace BitLinear

namespace BitRow

variable {n : ℕ} {row : BitRow} {rows : List BitRow}

/-! ## Fresh rows -/

/-- The complete blocks of `n` bits at the front of some bytes, as rows. -/
def blocks (n : ℕ) (bytes : List Byte) : List BitRow :=
  (List.range (bytes.length / (n / 8))).map fun k =>
    ofBytes ((bytes.drop (k * (n / 8))).take (n / 8))

instance : Decidable (IsSum n rows row) :=
  decidable_of_iff (∃ chosen ∈ rows.sublists, total n chosen = row) (by
    simp only [List.mem_sublists, IsSum])

/-- The rows that are no sum of the rows before them, `earlier` ones included. -/
def fresh (n : ℕ) (earlier : List BitRow) : List BitRow → List BitRow
  | [] => []
  | row :: rows =>
    if IsSum n earlier row then fresh n (earlier ++ [row]) rows
    else row :: fresh n (earlier ++ [row]) rows

/-- The blocks of a script are the rows whose bytes it is made of. -/
theorem blocks_bytesOf_append (hn : n % 8 = 0) (hpos : 0 < n)
    (hrows : ∀ row ∈ rows, row.length = n) {tail : List Byte} (htail : tail.length < n / 8) :
    blocks n (bytesOf rows ++ tail) = rows := by
  have hwidth : 0 < n / 8 := by omega
  have hcount : (bytesOf rows ++ tail).length / (n / 8) = rows.length := by
    rw [List.length_append, length_bytesOf hrows, Nat.add_comm, Nat.add_mul_div_right _ _ hwidth,
      Nat.div_eq_of_lt htail, Nat.zero_add]
  refine List.ext_getElem (by rw [blocks, List.length_map, List.length_range, hcount])
    fun k _ hk => ?_
  have hrows_eq : rows = rows.take k ++ rows[k] :: rows.drop (k + 1) := by simp
  have hsplit : bytesOf rows ++ tail =
      bytesOf (rows.take k) ++ (rows[k].toBytes ++ (bytesOf (rows.drop (k + 1)) ++ tail)) := by
    rw [← List.append_assoc rows[k].toBytes, ← bytesOf_cons, ← List.append_assoc,
      ← bytesOf_append, ← hrows_eq]
  have hbefore : (bytesOf (rows.take k)).length = k * (n / 8) := by
    rw [length_bytesOf fun row hrow => hrows row (List.mem_of_mem_take hrow), List.length_take,
      Nat.min_eq_left hk.le]
  have hrow : rows[k].toBytes.length = n / 8 := length_toBytes (hrows _ (List.getElem_mem hk))
  simp only [blocks, List.getElem_map, List.getElem_range]
  rw [hsplit, ← hbefore, List.drop_left, ← hrow, List.take_left, ofBytes_toBytes]

end BitRow

namespace RowBasis

variable {n : ℕ} {basis last : RowBasis} {row : BitRow} {source mid after : ByteSource}

/-- Offering rows accepts the fresh ones. -/
theorem Invariant.accepted_offerAll : ∀ {basis : RowBasis}, Invariant n basis →
    ∀ (earlier rows : List BitRow), (∀ row ∈ earlier ++ rows, row.length = n) →
      BitRow.rowSpan n basis.accepted = BitRow.rowSpan n earlier →
        (basis.offerAll rows).2.accepted = basis.accepted ++ BitRow.fresh n earlier rows
  | basis, _, earlier, [], _, _ => (List.append_nil _).symm
  | basis, h, earlier, row :: rows, hrows, hspan => by
    obtain ⟨hearlier, hrest⟩ := List.forall_mem_append.mp hrows
    have hrow : row.length = n := hrest row List.mem_cons_self
    have hsum : row.toVec n ∈ BitRow.rowSpan n earlier ↔ BitRow.IsSum n earlier row :=
      BitRow.toVec_mem_rowSpan_iff h.aligned hearlier hrow
    have hnext : BitRow.rowSpan n (basis.offer row).2.accepted =
        BitRow.rowSpan n (earlier ++ [row]) := by
      have hstep := h.rowSpan_offerAll [row]
      rw [List.filter_cons_of_pos (by simpa using hrow), List.filter_nil] at hstep
      exact hstep.trans (le_antisymm (BitRow.rowSpan_append_le hspan.le _)
        (BitRow.rowSpan_append_le hspan.ge _))
    have hrec := (h.offer row).accepted_offerAll (earlier ++ [row]) rows
      (by rwa [List.append_assoc, List.singleton_append]) hnext
    change ((basis.offer row).2.offerAll rows).2.accepted = _
    rw [hrec, BitRow.fresh]
    rcases h.offer_cases row with ⟨hne, -⟩ | ⟨-, hmem, heq⟩ | ⟨-, hout, next, heq, hacc, -⟩
    · exact absurd hrow hne
    · rw [heq, if_pos (hsum.mp (hspan ▸ hmem))]
    · rw [heq, if_neg (mt hsum.mpr (hspan ▸ hout)), hacc, ← List.append_cons]

/-- No fewer rows complete a basis. -/
theorem Completes.incomplete_of_append : ∀ {basis : RowBasis} {before : List BitRow},
    basis.Completes (before ++ [row]) → (basis.offerAll before).2.isComplete = false
  | _, [], h => h.1
  | basis, first :: before, h => by
    have hrest : ((basis.offer first).2.offerAll before).2.isComplete = false :=
      Completes.incomplete_of_append h.2
    exact hrest

/-- The last of the rows that complete a basis is no sum of the others. -/
theorem Invariant.exists_last_of_completes (h : Invariant n basis) (hc : basis.isComplete = false)
    {used : List BitRow} (hused : ∀ row ∈ used, row.length = n) (hcomp : basis.Completes used) :
    ∃ before last, used = before ++ [last] ∧
      last.toVec n ∉ BitRow.rowSpan n (basis.offerAll before).2.accepted := by
  rcases List.eq_nil_or_concat used with rfl | ⟨before, last, rfl⟩
  · exact absurd (hc.symm.trans hcomp) Bool.false_ne_true
  · rw [List.concat_eq_append] at hused hcomp ⊢
    refine ⟨before, last, rfl, fun hmem => ?_⟩
    have hlast : last.length = n := hused last (by simp)
    have hfull := hcomp.isComplete
    rw [offerAll_append] at hfull
    change ((basis.offerAll before).2.offer last).2.isComplete = true at hfull
    rw [(h.offerAll before).offer_of_mem hlast hmem] at hfull
    exact absurd (hcomp.incomplete_of_append.symm.trans hfull) Bool.false_ne_true

/-! ## The states of filling -/

/-- The states that filling goes through from a basis and a source. Each round draws a row and
offers it, whatever the answer is. -/
inductive Visits : RowBasis → ByteSource → RowBasis → ByteSource → Prop
  /-- No round. -/
  | start (basis : RowBasis) (source : ByteSource) : Visits basis source basis source
  /-- One round, and then others. -/
  | round {basis next last : RowBasis} {source mid after : ByteSource} {row : BitRow}
      {answer : Bool} : basis.isComplete = false → basis.novel.runOn source = (.ok row, mid) →
        basis.offer row = (.ok answer, next) → Visits next mid last after →
          Visits basis source last after

theorem Invariant.of_novelWithin_eq_ok (h : Invariant n basis) : ∀ {draws : ℕ}
    {source : ByteSource}, (basis.novelWithin draws).runOn source = (.ok row, after) →
      row.length = n ∧ row.toVec n ∉ BitRow.rowSpan n basis.accepted
  | 0, source, hrun => by simp [novelWithin] at hrun
  | draws + 1, source, hrun => by
    rw [novelWithin, Draw.runOn_bind_eq_ok_iff] at hrun
    obtain ⟨candidate, mid, hrandom, hrun⟩ := hrun
    rw [h.dimension_eq, BitRow.random_eq_ok_iff h.aligned] at hrandom
    have hlen : candidate.length = n :=
      BitRow.length_ofBytes h.aligned (ByteSource.length_of_take? hrandom)
    by_cases hmem : candidate.toVec n ∈ BitRow.rowSpan n basis.accepted
    · rw [h.isInSpan_of_mem hlen hmem] at hrun
      exact h.of_novelWithin_eq_ok hrun
    · rw [h.isInSpan_of_not_mem hlen hmem] at hrun
      obtain ⟨rfl, -⟩ : candidate = row ∧ mid = after := by
        simpa [Draw.runOn_bind, Draw.runOn_liftM] using hrun
      exact ⟨hlen, hmem⟩

/-- A row that is drawn from outside the span is there, whatever the source is. -/
theorem Invariant.of_novel_eq_ok (h : Invariant n basis)
    (hrun : basis.novel.runOn source = (.ok row, after)) :
    row.length = n ∧ row.toVec n ∉ BitRow.rowSpan n basis.accepted := by
  cases hc : basis.isComplete with
  | true => simp [novel, hc] at hrun
  | false => exact h.of_novelWithin_eq_ok ((runOn_novel hc source).symm.trans hrun)

/-- A row that is drawn is accepted. -/
theorem Invariant.offer_of_novel (h : Invariant n basis)
    (hrun : basis.novel.runOn source = (.ok row, after)) :
    ∃ next, basis.offer row = (.ok true, next) ∧ next.rank = basis.rank + 1 ∧
      Invariant n next := by
  obtain ⟨hrow, hout⟩ := h.of_novel_eq_ok hrun
  obtain ⟨next, hoffer, hacc, hnext⟩ := h.offer_of_not_mem hrow hout
  exact ⟨next, hoffer, by simp [rank, hacc], hnext⟩

theorem Visits.invariant (h : Visits basis source last after) :
    Invariant n basis → Invariant n last := by
  induction h with
  | start => exact id
  | round _ hnovel hoffer _ ih =>
    intro hbasis
    obtain ⟨next, hnext, -, hinv⟩ := hbasis.offer_of_novel hnovel
    obtain ⟨-, rfl⟩ : _ ∧ next = _ := by simpa using hnext.symm.trans hoffer
    exact ih hinv

/-- Filling visits states until the basis is complete or a draw fails. -/
theorem Invariant.fill_cases : ∀ (rounds : ℕ) {basis : RowBasis}, Invariant n basis →
    n ≤ basis.rank + rounds → ∀ source : ByteSource,
      (∃ last after, (basis.fill rounds).runOn source = (.ok last, after) ∧
        Visits basis source last after ∧ last.isComplete = true) ∨
      ∃ last mid cause after, (basis.fill rounds).runOn source = (.error cause, after) ∧
        Visits basis source last mid ∧ last.isComplete = false ∧
          last.novel.runOn mid = (.error cause, after)
  | rounds, basis, h, hrounds, source => by
    cases hc : basis.isComplete with
    | true =>
      exact Or.inl ⟨basis, source, fill_of_isComplete hc rounds source, .start basis source, hc⟩
    | false =>
      have hrank : basis.rank ≠ n := fun heq =>
        absurd (hc.symm.trans (h.isComplete_iff.mpr heq)) Bool.false_ne_true
      obtain ⟨rounds, rfl⟩ : ∃ k, rounds = k + 1 :=
        ⟨rounds - 1, by have := h.rank_le; omega⟩
      rcases hnovel : basis.novel.runOn source with ⟨cause | row, mid⟩
      · refine Or.inr ⟨basis, source, cause, mid, ?_, .start basis source, hc, hnovel⟩
        rw [fill, if_neg (by simp [hc]), Draw.runOn_bind, hnovel]
      · obtain ⟨next, hoffer, hrank', hnext⟩ := h.offer_of_novel hnovel
        have hrun : (basis.fill (rounds + 1)).runOn source = (next.fill rounds).runOn mid := by
          rw [fill, if_neg (by simp [hc]), Draw.runOn_bind, hnovel]
          dsimp only
          rw [Draw.runOn_bind, Draw.runOn_liftM, insert_eq_ok_iff.mpr hoffer]
        rw [hrun]
        rcases hnext.fill_cases rounds (by omega) mid with
          ⟨last, after, hfill, hvisits, hlast⟩ | ⟨last, stop, cause, after, hfill, hvisits, hlast⟩
        · exact Or.inl ⟨last, after, hfill, hvisits.round hc hnovel hoffer, hlast⟩
        · exact Or.inr ⟨last, stop, cause, after, hfill, hvisits.round hc hnovel hoffer, hlast⟩

/-! ## Enough rows -/

/-- Rows complete the basis without rows when as many of them as it has columns are independent. -/
theorem isComplete_offerAll_iff_independent (hn : n % 8 = 0) {rows : List BitRow}
    (hrows : ∀ row ∈ rows, row.length = n) :
    (offerAll ⟨n, [], []⟩ rows).2.isComplete = true ↔
      ∃ chosen, List.Sublist chosen rows ∧ BitRow.Independent n chosen ∧ chosen.length = n := by
  have hempty := invariant_empty hn
  have hlast := hempty.offerAll rows
  have hsub := accepted_offerAll_sublist hn rows
  rw [hlast.isComplete_iff]
  refine ⟨fun hrank => ⟨_, hsub, hlast.independent, hrank⟩, ?_⟩
  rintro ⟨chosen, hchosen, hind, hlen⟩
  have hgreatest := hlast.isGreatest_rank hsub (hempty.rowSpan_offerAll rows)
  rw [BitRow.ofLength_eq_self hrows] at hgreatest
  exact le_antisymm hlast.rank_le (hgreatest.2 ⟨chosen, hchosen, hind, hlen⟩)

end RowBasis

namespace BitMatrix

open RowBasis

variable {n : ℕ} {m inv : BitMatrix} {source after : ByteSource} {cause : Error}

/-! ## Whole runs -/

/-- A run that succeeds ends in a state of filling, whose matrix and inverse it answers with. -/
theorem exists_visits_of_randomInvertible_eq_ok (hn : n % 8 = 0)
    (h : (randomInvertible n).runOn source = (.ok (m, inv), after)) :
    ∃ last, Visits ⟨n, [], []⟩ source last after ∧ last.matrix = m ∧ last.inverse = .ok inv := by
  rw [runOn_randomInvertible hn] at h
  rcases (invariant_empty hn).fill_cases n (Nat.le_add_left n _) source with
    ⟨last, stop, hfill, hvisits, -⟩ | ⟨last, mid, cause, stop, hfill, -⟩
  · rw [hfill] at h
    cases hinverse : last.inverse with
    | error cause => simp [hinverse, Except.map] at h
    | ok b =>
      obtain ⟨⟨rfl, rfl⟩, rfl⟩ : (last.matrix = m ∧ b = inv) ∧ stop = after := by
        simpa [hinverse, Except.map] using h
      exact ⟨last, hvisits, rfl, hinverse⟩
  · simp [hfill] at h

/-- A run that fails does so in a state of filling, where no row is drawn. -/
theorem exists_visits_of_randomInvertible_eq_error (hn : n % 8 = 0)
    (h : (randomInvertible n).runOn source = (.error cause, after)) :
    ∃ last mid, Visits ⟨n, [], []⟩ source last mid ∧ last.isComplete = false ∧
      last.novel.runOn mid = (.error cause, after) := by
  rw [runOn_randomInvertible hn] at h
  rcases (invariant_empty hn).fill_cases n (Nat.le_add_left n _) source with
    ⟨last, stop, hfill, hvisits, hc⟩ | ⟨last, mid, cause', stop, hfill, hvisits, hc, hnovel⟩
  · obtain ⟨b, hinverse, -⟩ := (hvisits.invariant (invariant_empty hn)).invert_matrix hc
    simp [hfill, hinverse, Except.map] at h
  · obtain ⟨rfl, rfl⟩ : cause' = cause ∧ stop = after := by simpa [hfill] using h
    exact ⟨last, mid, hvisits, hc, hnovel⟩

/-- What a run on a script answers with and takes. -/
structure Selects (n : ℕ) (bytes : List Byte) (m inv : BitMatrix) (after : ByteSource) : Prop where
  /-- The rows are the fresh blocks up to one that is fresh, and nothing behind it is taken. -/
  rows_eq : ∃ before last later, BitRow.blocks n bytes = before ++ last :: later ∧
    ¬BitRow.IsSum n before last ∧ m.rows = BitRow.fresh n [] (before ++ [last]) ∧
      (randomInvertible n).Consumes bytes ((before.length + 1) * (n / 8))
  shape : m.HasShape n n
  /-- The answer is that of a state of filling. -/
  visited : ∃ last, Visits ⟨n, [], []⟩ (.script bytes) last after ∧ last.matrix = m ∧
    last.inverse = .ok inv
  invert : m.invert = .ok (some inv)
  compose_inv : m.compose inv = .ok (eye n)
  inv_compose : inv.compose m = .ok (eye n)

/-- What a run on a script takes when it fails. -/
structure Exhausts (n : ℕ) (bytes : List Byte) (cause : Error) (after : ByteSource) : Prop where
  cause_eq : cause = .sourceExhausted
  /-- All blocks are taken, and the rest is no block. -/
  after_eq : ∃ rest, after = .script rest ∧ rest.length < n / 8 ∧
    (randomInvertible n).Consumes bytes ((BitRow.blocks n bytes).length * (n / 8))
  /-- The draw that fails is one of a state of filling. -/
  visited : ∃ last mid, Visits ⟨n, [], []⟩ (.script bytes) last mid ∧ last.isComplete = false ∧
    last.novel.runOn mid = (.error cause, after)

/-- The rows that complete a basis are selected from a script that begins with them. -/
theorem selects_of_completes (hn : n % 8 = 0) (hpos : 0 < n) {used later : List BitRow}
    (hrows : ∀ row ∈ used ++ later, row.length = n) (hcomp : Completes ⟨n, [], []⟩ used)
    {tail : List Byte} (htail : tail.length < n / 8) : ∃ m inv after,
      (randomInvertible n).runOn (.script (BitRow.bytesOf (used ++ later) ++ tail)) =
          (.ok (m, inv), after) ∧
        Selects n (BitRow.bytesOf (used ++ later) ++ tail) m inv after := by
  have hempty := invariant_empty hn
  have hblocks := BitRow.blocks_bytesOf_append hn hpos hrows htail
  have hused := (List.forall_mem_append.mp hrows).1
  obtain ⟨m, inv, hrun, haccepted, hshape, hinv⟩ :=
    randomInvertible_eq_ok hn hused hcomp (BitRow.bytesOf later ++ tail)
  obtain ⟨hcancel, hcancel'⟩ := hshape.compose_inverse hinv
  have hconsumes := Draw.consumes_append (congrArg Prod.snd hrun)
  rw [← List.append_assoc, ← BitRow.bytesOf_append] at hrun hconsumes
  have hfresh : m.rows = BitRow.fresh n [] used := by
    rw [haccepted, hempty.accepted_offerAll [] used hused rfl, List.nil_append]
  have hincomplete : RowBasis.isComplete ⟨n, [], []⟩ = false := by
    simp [isComplete, rank, hpos.ne]
  obtain ⟨before, last, rfl, hout⟩ :=
    hempty.exists_last_of_completes hincomplete hused hcomp
  obtain ⟨hbefore, hlast⟩ := List.forall_mem_append.mp hused
  refine ⟨m, inv, _, hrun, ⟨before, last, later, ?_, ?_, hfresh, ?_⟩, hshape,
    exists_visits_of_randomInvertible_eq_ok hn hrun, hinv, hcancel, hcancel'⟩
  · rw [hblocks, List.append_assoc, List.singleton_append]
  · rw [rowSpan_accepted_offerAll hn hbefore,
      BitRow.toVec_mem_rowSpan_iff hn hbefore (hlast last List.mem_cons_self)] at hout
    exact hout
  · rw [BitRow.length_bytesOf hused, List.length_append, List.length_singleton] at hconsumes
    exact hconsumes

/-- A script whose rows do not complete a basis is used up. -/
theorem exhausts_of_incomplete (hn : n % 8 = 0) (hpos : 0 < n) {rows : List BitRow}
    (hrows : ∀ row ∈ rows, row.length = n)
    (hlast : (RowBasis.offerAll ⟨n, [], []⟩ rows).2.isComplete = false) {tail : List Byte}
    (htail : tail.length < n / 8) : ∃ cause after,
      (randomInvertible n).runOn (.script (BitRow.bytesOf rows ++ tail)) = (.error cause, after) ∧
        Exhausts n (BitRow.bytesOf rows ++ tail) cause after := by
  have hrun := randomInvertible_eq_error hn hrows hlast htail
  have hconsumes := Draw.consumes_append (congrArg Prod.snd hrun)
  rw [BitRow.length_bytesOf hrows] at hconsumes
  refine ⟨_, _, hrun, rfl, ⟨tail, rfl, htail, ?_⟩,
    exists_visits_of_randomInvertible_eq_error hn hrun⟩
  rwa [BitRow.blocks_bytesOf_append hn hpos hrows htail]

/-- Drawing row by row from a script succeeds exactly when as many of its blocks as the matrix has
rows are independent. It then answers with the fresh blocks up to the last one needed, and takes
nothing behind it; otherwise the script is used up. Every row that is offered on the way is
accepted. -/
theorem randomInvertible_selects (hn : n % 8 = 0) (hpos : 0 < n) (bytes : List Byte) :
    RowBasis.empty n = .ok ⟨n, [], []⟩ ∧ identity n = .ok (eye n) ∧
    ((∃ m inv after, (randomInvertible n).runOn (.script bytes) = (.ok (m, inv), after)) ↔
      ∃ chosen, List.Sublist chosen (BitRow.blocks n bytes) ∧ BitRow.Independent n chosen ∧
        chosen.length = n) ∧
    (∀ m inv after, (randomInvertible n).runOn (.script bytes) = (.ok (m, inv), after) →
      Selects n bytes m inv after) ∧
    (∀ cause after, (randomInvertible n).runOn (.script bytes) = (.error cause, after) →
      Exhausts n bytes cause after) ∧
    ∀ basis source row after, Visits ⟨n, [], []⟩ (.script bytes) basis source →
      basis.novel.runOn source = (.ok row, after) →
        ∃ next, basis.offer row = (.ok true, next) := by
  refine ⟨empty_eq_ok hn, identity_eq_ok hn, ?_⟩
  have haccepts (basis : RowBasis) (source : ByteSource) (row : BitRow) (after : ByteSource)
      (hvisits : Visits ⟨n, [], []⟩ (.script bytes) basis source)
      (hnovel : basis.novel.runOn source = (.ok row, after)) :
      ∃ next, basis.offer row = (.ok true, next) := by
    obtain ⟨next, hoffer, -⟩ := (hvisits.invariant (invariant_empty hn)).offer_of_novel hnovel
    exact ⟨next, hoffer⟩
  obtain ⟨rows, tail, hrows, htail, rfl⟩ := BitRow.exists_eq_bytesOf_append hn hpos bytes
  rw [BitRow.blocks_bytesOf_append hn hpos hrows htail,
    ← isComplete_offerAll_iff_independent hn hrows]
  cases hc : (RowBasis.offerAll ⟨n, [], []⟩ rows).2.isComplete with
  | true =>
    rcases completes_cases ⟨n, [], []⟩ rows with ⟨used, later, rfl, hcomp⟩ | hnot
    · obtain ⟨m, inv, after, hrun, hselects⟩ := selects_of_completes hn hpos hrows hcomp htail
      refine ⟨⟨fun _ => rfl, fun _ => ⟨m, inv, after, hrun⟩⟩, fun m' inv' after' h => ?_,
        fun cause after' h => ?_, haccepts⟩
      · obtain ⟨⟨rfl, rfl⟩, rfl⟩ : (m = m' ∧ inv = inv') ∧ after = after' := by
          simpa using hrun.symm.trans h
        exact hselects
      · rw [hrun] at h
        simp at h
    · exact absurd (hnot.symm.trans hc) Bool.false_ne_true
  | false =>
    obtain ⟨cause, after, hrun, hexhausts⟩ := exhausts_of_incomplete hn hpos hrows hc htail
    refine ⟨⟨fun ⟨m, inv, after', h⟩ => ?_, fun h => absurd h Bool.false_ne_true⟩,
      fun m inv after' h => ?_, fun cause' after' h => ?_, haccepts⟩
    · simp [hrun] at h
    · simp [hrun] at h
    · obtain ⟨rfl, rfl⟩ : cause = cause' ∧ after = after' := by simpa using hrun.symm.trans h
      exact hexhausts

/-- Of ten rows one is the sum of the two before it and one is zero; the byte behind them is
left. -/
theorem randomInvertible_selects_eight : 8 % 8 = 0 ∧ 0 < 8 ∧
    Selects 8 [2, 1, 3, 4, 8, 16, 96, 64, 0, 255, 7] sample sampleInverse (.script [7]) :=
  ⟨rfl, by decide, (randomInvertible_selects rfl (by decide) _).2.2.2.1 _ _ _ (by cbv)⟩

end BitMatrix

end BitLinear
