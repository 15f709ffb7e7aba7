import BitLinear.BitRow.Lemmas
import BitLinear.TrackedRow

/-!
# Operations whose checks pass

The operations on rows answer an error when a check fails. On operands of matching lengths no
check does, and each operation then has a plain value: `zeros`, `unitRow`, `combination`, and
`TrackedRow.sum`. A loop over such operations is the plain loop over their values (`mapM_eq_ok`,
`foldlM_eq_ok`, `findM?_eq_ok`), so that what follows is said of the values.
-/

namespace BitLinear

theorem ok_bind {α β : Type} (a : α) (f : α → Except Error β) : (Except.ok a >>= f) = f a :=
  rfl

theorem bind_eq_ok_iff {ε α β : Type} {x : Except ε α} {f : α → Except ε β} {b : β} :
    (x >>= f) = .ok b ↔ ∃ a, x = .ok a ∧ f a = .ok b := by
  cases x with
  | ok a => simp [bind, Except.bind]
  | error cause => simp [bind, Except.bind]

/-! ## Loops -/

theorem mapM_eq_ok {α β : Type} {f : α → Except Error β} {g : α → β} :
    ∀ {l : List α}, (∀ x ∈ l, f x = .ok (g x)) → l.mapM f = .ok (l.map g)
  | [], _ => rfl
  | x :: l, h => by
    rw [List.mapM_cons, h x (by simp), mapM_eq_ok fun y hy => h y (by simp [hy])]
    rfl

/-- A loop each of whose steps passes and keeps `inv`. -/
theorem foldlM_eq_ok {σ α : Type} {f : σ → α → Except Error σ} {g : σ → α → σ} (inv : σ → Prop) :
    ∀ {l : List α} {s : σ}, inv s → (∀ t, inv t → ∀ x ∈ l, f t x = .ok (g t x) ∧ inv (g t x)) →
      l.foldlM f s = .ok (l.foldl g s) ∧ inv (l.foldl g s)
  | [], _, hs, _ => ⟨rfl, hs⟩
  | x :: l, s, hs, h => by
    obtain ⟨hx, hinv⟩ := h s hs x (by simp)
    rw [List.foldlM_cons, hx]
    exact foldlM_eq_ok inv hinv fun t ht y hy => h t ht y (by simp [hy])

theorem findM?_eq_ok {α : Type} {f : α → Except Error Bool} {g : α → Bool} :
    ∀ {l : List α}, (∀ x ∈ l, f x = .ok (g x)) → l.findM? f = .ok (l.find? g)
  | [], _ => rfl
  | x :: l, h => by
    have ih := findM?_eq_ok fun y hy => h y (List.mem_cons_of_mem x hy)
    have hx := h x (by simp)
    cases hg : g x <;> simp [List.findM?, hx, hg, ih, bind, Except.bind, pure, Except.pure]

namespace BitRow

/-! ## Fixed rows -/

/-- The row of `n` zeros. -/
def zeros (n : Nat) : BitRow :=
  ⟨Array.replicate (n / 8) 0⟩

theorem zero_eq_ok {n : Nat} (hn : n % 8 = 0) : zero n = .ok (zeros n) := by
  rw [zero, checkAligned_eq_ok hn]
  rfl

theorem length_zeros {n : Nat} (hn : n % 8 = 0) : (zeros n).length = n := by
  simp only [length, zeros, Array.size_replicate]
  omega

@[simp] theorem testBit_zeros (n i : Nat) : (zeros n).testBit i = false := by
  by_cases hi : i / 8 < n / 8 <;> simp [testBit, zeros, hi]

/-- The row of `n` bits of which only bit `i` is set. -/
def unitRow (n i : Nat) : BitRow :=
  pack ((List.range n).map fun j => decide (j = i))

theorem length_unitRow {n : Nat} (hn : n % 8 = 0) (i : Nat) : (unitRow n i).length = n := by
  rw [unitRow, length_pack] <;> simp [hn]

theorem testBit_unitRow {n i j : Nat} (hn : n % 8 = 0) (hj : j < n) :
    (unitRow n i).testBit j = decide (j = i) := by
  rw [unitRow, testBit_pack (by simp [hn])]
  simp [hj]

theorem unit_eq_ok {n i : Nat} (hn : n % 8 = 0) (hi : i < n) : unit n i = .ok (unitRow n i) := by
  have hlen := length_zeros hn
  obtain ⟨row, hrow, hl, hbits⟩ := setBit_eq_ok true (hlen.symm ▸ hi)
  have heq : row = unitRow n i := by
    refine ext_testBit (by rw [hl, hlen, length_unitRow hn]) fun j hj => ?_
    rw [hl] at hj
    rw [hbits j hj, testBit_unitRow hn (hlen ▸ hj), testBit_zeros]
    by_cases h : j = i <;> simp [h]
  rw [unit, zero_eq_ok hn, ← heq, ← hrow]
  exact if_pos hi

/-! ## Combinations -/

/-- Add a row to a sum if the selector has bit `k`. -/
def select (selector : BitRow) (total : BitRow) (entry : BitRow × Nat) : BitRow :=
  if selector.testBit entry.2 then total.sum entry.1 else total

/-- The sum of the rows of `width` bits that the selector names. -/
def combination (selector : BitRow) (rows : List BitRow) (width : Nat) : BitRow :=
  rows.zipIdx.foldl (select selector) (zeros width)

theorem combine_eq_ok {selector : BitRow} {rows : List BitRow} {width : Nat}
    (hw : width % 8 = 0) (hs : rows.length ≤ selector.length)
    (hrows : ∀ row ∈ rows, row.length = width) :
    selector.combine rows width = .ok (selector.combination rows width) ∧
      (selector.combination rows width).length = width := by
  rw [combine, zero_eq_ok hw]
  refine foldlM_eq_ok (fun total : BitRow => total.length = width) (length_zeros hw) ?_
  rintro total ht ⟨row, k⟩ hmem
  obtain ⟨-, hk, -⟩ := List.mem_zipIdx hmem
  have hrow : row.length = width := hrows row (List.fst_mem_of_mem_zipIdx hmem)
  dsimp only
  rw [getBit_eq_ok (by omega : k < selector.length), select]
  cases hbit : selector.testBit k
  · exact ⟨rfl, ht⟩
  · exact ⟨add_eq_ok (ht.trans hrow.symm), (length_sum (ht.trans hrow.symm)).trans ht⟩

end BitRow

namespace TrackedRow

/-! ## Tracked rows -/

/-- Both parts have `n` bits. -/
def HasLength (n : Nat) (t : TrackedRow) : Prop :=
  t.vector.length = n ∧ t.coefficients.length = n

/-- The sum in both parts. -/
def sum (a b : TrackedRow) : TrackedRow :=
  ⟨a.vector.sum b.vector, a.coefficients.sum b.coefficients⟩

variable {n : Nat} {a b : TrackedRow}

theorem HasLength.sum (ha : a.HasLength n) (hb : b.HasLength n) : (a.sum b).HasLength n :=
  ⟨(BitRow.length_sum (ha.1.trans hb.1.symm)).trans ha.1,
    (BitRow.length_sum (ha.2.trans hb.2.symm)).trans ha.2⟩

theorem add_eq_ok (ha : a.HasLength n) (hb : b.HasLength n) : a.add b = .ok (a.sum b) := by
  rw [add, BitRow.add_eq_ok (ha.1.trans hb.1.symm), BitRow.add_eq_ok (ha.2.trans hb.2.symm)]
  rfl

/-- Add `source` if the vector has bit `col`. -/
def cleared (row source : TrackedRow) (col : Nat) : TrackedRow :=
  if row.vector.testBit col then row.sum source else row

theorem testBit_cleared (ha : a.HasLength n) (hb : b.HasLength n) (col k : Nat) :
    (a.cleared b col).vector.testBit k =
      (a.vector.testBit k ^^ (a.vector.testBit col && b.vector.testBit k)) := by
  unfold cleared
  cases a.vector.testBit col
  · simp
  · simp [TrackedRow.sum, BitRow.testBit_sum (ha.1.trans hb.1.symm)]

theorem HasLength.cleared (ha : a.HasLength n) (hb : b.HasLength n) (col : Nat) :
    (a.cleared b col).HasLength n := by
  unfold TrackedRow.cleared
  split
  · exact ha.sum hb
  · exact ha

theorem clear_eq_ok (ha : a.HasLength n) (hb : b.HasLength n) {col : Nat} (hcol : col < n) :
    a.clear b col = .ok (a.cleared b col) := by
  rw [clear, BitRow.getBit_eq_ok (ha.1.symm ▸ hcol), cleared]
  cases hbit : a.vector.testBit col
  · rfl
  · exact add_eq_ok ha hb

end TrackedRow

end BitLinear
