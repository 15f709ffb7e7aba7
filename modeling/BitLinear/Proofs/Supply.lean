import BitLinear.Proofs.Checked
import BitLinear.Sampling

/-!
# What a source supplies

`source.Supplies n rows after` says that `source` fills requests for these rows of `n` bits one
after the other and is then `after`. A draw of a row, of several rows or of a matrix succeeds
exactly when the source supplies what it answers (`random_eq_ok_iff`, `randomList_eq_ok_iff`). A
script supplies the rows whose bytes it begins with (`supplies_script_iff`). Every script is the
bytes of some rows and fewer bytes than a row has (`exists_eq_bytesOf_append`), and these bytes have
only one reading (`bytesOf_append_inj`).
-/

namespace BitLinear

/-! ## The bytes of rows -/

namespace BitRow

/-- The bytes of some rows, one after the other. -/
def bytesOf (rows : List BitRow) : List Byte :=
  rows.flatMap toBytes

variable {n : Nat} {row : BitRow} {rows xs ys : List BitRow}

@[simp] theorem bytesOf_nil : bytesOf [] = [] :=
  rfl

@[simp] theorem bytesOf_cons (row : BitRow) (rows : List BitRow) :
    bytesOf (row :: rows) = row.toBytes ++ bytesOf rows :=
  rfl

@[simp] theorem bytesOf_append (xs ys : List BitRow) :
    bytesOf (xs ++ ys) = bytesOf xs ++ bytesOf ys :=
  List.flatMap_append

@[simp] theorem ofBytes_toBytes (row : BitRow) : ofBytes row.toBytes = row :=
  rfl

@[simp] theorem toBytes_ofBytes (bytes : List Byte) : (ofBytes bytes).toBytes = bytes :=
  rfl

theorem length_eq_toBytes (row : BitRow) : row.length = 8 * row.toBytes.length :=
  rfl

theorem length_toBytes (h : row.length = n) : row.toBytes.length = n / 8 := by
  rw [← h, length_eq_toBytes]
  omega

theorem length_ofBytes (hn : n % 8 = 0) {bytes : List Byte} (h : bytes.length = n / 8) :
    (ofBytes bytes).length = n := by
  rw [length_eq_toBytes, toBytes_ofBytes, h]
  omega

theorem toBytes_inj {a b : BitRow} : a.toBytes = b.toBytes ↔ a = b :=
  ⟨fun h => by rw [← ofBytes_toBytes a, h, ofBytes_toBytes], fun h => h ▸ rfl⟩

theorem length_bytesOf : ∀ {rows : List BitRow}, (∀ row ∈ rows, row.length = n) →
    (bytesOf rows).length = rows.length * (n / 8)
  | [], _ => (Nat.zero_mul _).symm
  | row :: rows, h => by
    obtain ⟨hrow, hrows⟩ := List.forall_mem_cons.mp h
    rw [bytesOf_cons, List.length_append, length_toBytes hrow, length_bytesOf hrows,
      List.length_cons, Nat.succ_mul, Nat.add_comm]

/-- As many rows from the same bytes are the same rows, and leave the same bytes. -/
theorem bytesOf_append_inj : ∀ {xs ys : List BitRow} {r s : List Byte}, xs.length = ys.length →
    (∀ row ∈ xs, row.length = n) → (∀ row ∈ ys, row.length = n) →
      bytesOf xs ++ r = bytesOf ys ++ s → xs = ys ∧ r = s
  | [], [], _, _, _, _, _, h => ⟨rfl, h⟩
  | x :: xs, y :: ys, r, s, hlen, hx, hy, h => by
    obtain ⟨hx, hxs⟩ := List.forall_mem_cons.mp hx
    obtain ⟨hy, hys⟩ := List.forall_mem_cons.mp hy
    rw [bytesOf_cons, bytesOf_cons, List.append_assoc, List.append_assoc] at h
    obtain ⟨hhead, htail⟩ := List.append_inj h ((length_toBytes hx).trans (length_toBytes hy).symm)
    obtain ⟨rfl, rfl⟩ := bytesOf_append_inj (Nat.succ.inj hlen) hxs hys htail
    exact ⟨by rw [toBytes_inj.mp hhead], rfl⟩

/-- Rows that are not empty are determined by their bytes. -/
theorem bytesOf_inj (hpos : 0 < n) (hn : n % 8 = 0) (hx : ∀ row ∈ xs, row.length = n)
    (hy : ∀ row ∈ ys, row.length = n) (h : bytesOf xs = bytesOf ys) : xs = ys := by
  have hlen := congrArg List.length h
  rw [length_bytesOf hx, length_bytesOf hy] at hlen
  have hcount := Nat.eq_of_mul_eq_mul_right (by omega) hlen
  exact (bytesOf_append_inj hcount hx hy (congrArg (· ++ []) h)).1

/-- As many bytes as `k` rows have are the bytes of `k` rows. -/
theorem exists_eq_bytesOf (hn : n % 8 = 0) : ∀ {k : Nat} {bytes : List Byte},
    bytes.length = k * (n / 8) →
      ∃ rows, rows.length = k ∧ (∀ row ∈ rows, row.length = n) ∧ bytes = bytesOf rows
  | 0, bytes, h => ⟨[], rfl, by simp, by simpa using h⟩
  | k + 1, bytes, h => by
    rw [Nat.succ_mul] at h
    have hdrop : (bytes.drop (n / 8)).length = k * (n / 8) := by rw [List.length_drop]; omega
    have htake : (bytes.take (n / 8)).length = n / 8 := by rw [List.length_take]; omega
    obtain ⟨rows, hlen, hrows, hbytes⟩ := exists_eq_bytesOf hn hdrop
    refine ⟨ofBytes (bytes.take (n / 8)) :: rows, by simp [hlen], ?_, ?_⟩
    · exact List.forall_mem_cons.mpr ⟨length_ofBytes hn htake, hrows⟩
    · rw [bytesOf_cons, toBytes_ofBytes, ← hbytes, List.take_append_drop]

/-- A script is rows and then fewer bytes than a row has. -/
theorem exists_eq_bytesOf_append (hn : n % 8 = 0) (hpos : 0 < n) (bytes : List Byte) :
    ∃ rows tail, (∀ row ∈ rows, row.length = n) ∧ tail.length < n / 8 ∧
      bytes = bytesOf rows ++ tail := by
  have hwidth : 0 < n / 8 := by omega
  have hdiv := Nat.div_add_mod bytes.length (n / 8)
  have hmod := Nat.mod_lt bytes.length hwidth
  have hk : (bytes.take (bytes.length / (n / 8) * (n / 8))).length =
      bytes.length / (n / 8) * (n / 8) := by
    rw [List.length_take, Nat.min_eq_left (Nat.div_mul_le_self _ _)]
  obtain ⟨rows, -, hrows, hbytes⟩ := exists_eq_bytesOf hn hk
  refine ⟨rows, bytes.drop (bytes.length / (n / 8) * (n / 8)), hrows, ?_, ?_⟩
  · rw [List.length_drop, Nat.mul_comm]
    omega
  · rw [← hbytes, List.take_append_drop]

end BitRow

/-! ## Requests -/

namespace Keystream

theorem length_wordBytes (w : UInt32) : (wordBytes w).length = 4 :=
  rfl

theorem length_words (key : Vector UInt32 8) (start count : Nat) :
    (words key start count).length = count := by
  have hblocks : ((List.range ((start % 16 + count + 15) / 16)).flatMap fun k =>
      (block key (UInt64.ofNat (start / 16 + k))).toList).length =
        (start % 16 + count + 15) / 16 * 16 := by
    simp [List.length_flatMap, List.map_const']
  rw [words, List.length_take, List.length_drop, hblocks]
  omega

theorem length_take (stream : Keystream) (count : Nat) : (stream.take count).1.length = count := by
  have hbytes : ((words stream.key stream.position ((count + 3) / 4)).flatMap wordBytes).length =
      (count + 3) / 4 * 4 := by
    simp [List.length_flatMap, length_wordBytes, length_words, List.map_const']
  rw [take, List.length_take, hbytes]
  omega

end Keystream

namespace ByteSource

variable {source mid after : ByteSource} {bytes taken : List Byte} {count n : Nat}

/-- A request that is filled is filled to the last byte. -/
theorem length_of_take? (h : source.take? count = some (taken, after)) : taken.length = count := by
  cases source with
  | script bytes =>
    rw [take?] at h
    split at h
    · obtain ⟨rfl, -⟩ := Prod.mk.inj (Option.some.inj h)
      rw [List.length_take]
      omega
    · exact absurd h.symm (Option.some_ne_none _)
  | keystream stream =>
    obtain ⟨rfl, -⟩ := Prod.mk.inj (Option.some.inj h)
    exact stream.length_take count

theorem take?_script_eq_some_iff : (script bytes).take? count = some (taken, after) ↔
    taken.length = count ∧ ∃ rest, bytes = taken ++ rest ∧ after = .script rest := by
  refine ⟨fun h => ⟨length_of_take? h, ?_⟩, ?_⟩
  · rw [take?] at h
    split at h
    · obtain ⟨rfl, rfl⟩ := Prod.mk.inj (Option.some.inj h)
      exact ⟨_, (List.take_append_drop _ _).symm, rfl⟩
    · exact absurd h.symm (Option.some_ne_none _)
  · rintro ⟨rfl, rest, rfl, rfl⟩
    simp [take?]

theorem take?_script_eq_none (h : bytes.length < count) : (script bytes).take? count = none :=
  if_neg (Nat.not_le_of_lt h)

/-- Requests for these rows of `n` bits are filled one after the other. -/
def Supplies (n : Nat) (source : ByteSource) : List BitRow → ByteSource → Prop
  | [], after => source = after
  | row :: rows, after =>
    ∃ mid : ByteSource, source.take? (n / 8) = some (row.toBytes, mid) ∧ mid.Supplies n rows after

theorem supplies_append : ∀ {source : ByteSource} {xs ys : List BitRow},
    source.Supplies n (xs ++ ys) after ↔
      ∃ mid : ByteSource, source.Supplies n xs mid ∧ mid.Supplies n ys after
  | source, [], ys => by simp [Supplies]
  | source, x :: xs, ys => by
    simp only [List.cons_append, Supplies, supplies_append]
    refine ⟨?_, ?_⟩
    · rintro ⟨m, hx, mid, hxs, hys⟩
      exact ⟨mid, ⟨m, hx, hxs⟩, hys⟩
    · rintro ⟨mid, ⟨m, hx, hxs⟩, hys⟩
      exact ⟨m, hx, mid, hxs, hys⟩

theorem Supplies.length_eq (hn : n % 8 = 0) : ∀ {source : ByteSource} {rows : List BitRow},
    source.Supplies n rows after → ∀ row ∈ rows, row.length = n
  | _, [], _ => fun _ h => absurd h List.not_mem_nil
  | _, _ :: _, ⟨_, hrow, hrows⟩ =>
    List.forall_mem_cons.mpr ⟨BitRow.length_ofBytes hn (length_of_take? hrow),
      Supplies.length_eq hn hrows⟩

/-- A script supplies the rows whose bytes it begins with. -/
theorem supplies_script_iff (hn : n % 8 = 0) : ∀ {bytes : List Byte} {rows : List BitRow}
    {after : ByteSource}, (script bytes).Supplies n rows after ↔ (∀ row ∈ rows, row.length = n) ∧
      ∃ rest, bytes = BitRow.bytesOf rows ++ rest ∧ after = .script rest
  | bytes, [], _ => by simp [Supplies, eq_comm]
  | bytes, row :: rows, _ => by
    rw [List.forall_mem_cons]
    refine ⟨?_, ?_⟩
    · rintro ⟨mid, hrow, hrest⟩
      obtain ⟨hlen, rest, rfl, rfl⟩ := take?_script_eq_some_iff.mp hrow
      obtain ⟨hrows, rest, rfl, rfl⟩ := (supplies_script_iff hn).mp hrest
      exact ⟨⟨BitRow.length_ofBytes hn hlen, hrows⟩, rest, by simp, rfl⟩
    · rintro ⟨⟨hrow, hrows⟩, rest, rfl, rfl⟩
      refine ⟨.script (BitRow.bytesOf rows ++ rest), ?_, ?_⟩
      · exact take?_script_eq_some_iff.mpr ⟨BitRow.length_toBytes hrow, _, by simp, rfl⟩
      · exact (supplies_script_iff hn).mpr ⟨hrows, rest, rfl, rfl⟩

end ByteSource

/-! ## Draws of rows -/

/-- A draw takes exactly so many bytes from a script, whether it succeeds or fails. -/
def Draw.Consumes {α : Type} (draw : Draw α) (bytes : List Byte) (count : Nat) : Prop :=
  count ≤ bytes.length ∧ (draw.runOn (.script bytes)).2 = .script (bytes.drop count)

theorem Draw.consumes_append {α : Type} {draw : Draw α} {taken rest : List Byte}
    (h : (draw.runOn (.script (taken ++ rest))).2 = .script rest) :
    draw.Consumes (taken ++ rest) taken.length :=
  ⟨by simp, by rw [h, List.drop_left]⟩

/-- A draw takes only one number of bytes. -/
theorem Draw.Consumes.unique {α : Type} {draw : Draw α} {bytes : List Byte} {count taken : Nat}
    (h : draw.Consumes bytes count) (h' : draw.Consumes bytes taken) : count = taken := by
  obtain ⟨hle, hrun⟩ := h
  obtain ⟨hle', hrun'⟩ := h'
  have hlen := congrArg List.length (ByteSource.script.inj (hrun.symm.trans hrun'))
  rw [List.length_drop, List.length_drop] at hlen
  omega

/-- What was taken is what is missing. -/
theorem Draw.Consumes.eq_length {α : Type} {draw : Draw α} {taken rest : List Byte} {count : Nat}
    (h : draw.Consumes (taken ++ rest) count)
    (hrest : (draw.runOn (.script (taken ++ rest))).2 = .script rest) : count = taken.length :=
  h.unique (consumes_append hrest)

/-- A draw made of two succeeds when the first does and the second goes on from there. -/
theorem Draw.runOn_bind_eq_ok_iff {α β : Type} {draw : Draw α} {next : α → Draw β}
    {source after : ByteSource} {b : β} : (draw >>= next).runOn source = (.ok b, after) ↔
      ∃ a mid, draw.runOn source = (.ok a, mid) ∧ (next a).runOn mid = (.ok b, after) := by
  rw [runOn_bind]
  rcases draw.runOn source with ⟨_ | a, mid⟩
  · simp
  · refine ⟨fun h => ⟨a, mid, rfl, h⟩, ?_⟩
    rintro ⟨_, _, ⟨⟩, h⟩
    exact h

theorem Draw.runOn_fst_eq_ok_iff {α β : Type} {draw : Draw (α × β)} {source after : ByteSource}
    {a : α} : (Prod.fst <$> draw).runOn source = (.ok a, after) ↔
      ∃ b, draw.runOn source = (.ok (a, b), after) := by
  rw [runOn_map]
  rcases draw.runOn source with ⟨_ | ⟨a', b⟩, mid⟩ <;> simp [Except.map]

namespace BitRow

variable {n count : Nat} {source after : ByteSource} {row : BitRow} {rows : List BitRow}

theorem runOn_random (hn : n % 8 = 0) (source : ByteSource) : (random n).runOn source =
    match source.take? (n / 8) with
    | some (bytes, after) => (.ok (ofBytes bytes), after)
    | none => (.error .sourceExhausted, source) := by
  rw [random, checkAligned_eq_ok hn, Draw.runOn_bind, Draw.runOn_liftM]
  dsimp only
  rw [Draw.runOn_bind, Draw.runOn_bytes]
  cases source.take? (n / 8) <;> rfl

theorem random_eq_ok_iff (hn : n % 8 = 0) : (random n).runOn source = (.ok row, after) ↔
    source.take? (n / 8) = some (row.toBytes, after) := by
  rw [runOn_random hn]
  cases htake : source.take? (n / 8) with
  | none => simp
  | some result =>
    obtain ⟨bytes, rest⟩ := result
    simp [← toBytes_inj]

/-- Several rows are drawn exactly when the source supplies them. -/
theorem randomList_eq_ok_iff (hn : n % 8 = 0) : ∀ {count : Nat} {source after : ByteSource}
    {rows : List BitRow}, (randomList n count).runOn source = (.ok rows, after) ↔
      rows.length = count ∧ source.Supplies n rows after
  | 0, source, after, rows => by
    rw [randomList, Draw.runOn_pure]
    cases rows <;> simp [ByteSource.Supplies]
  | count + 1, source, after, rows => by
    simp only [randomList, Draw.runOn_bind_eq_ok_iff, random_eq_ok_iff hn, Draw.runOn_pure,
      Prod.mk.injEq, Except.ok.injEq, randomList_eq_ok_iff hn]
    refine ⟨?_, ?_⟩
    · rintro ⟨row, mid, hrow, tail, _, ⟨hlen, htail⟩, rfl, rfl⟩
      exact ⟨congrArg (· + 1) hlen, mid, hrow, htail⟩
    · rintro ⟨hlen, h⟩
      obtain ⟨row, tail, rfl⟩ := List.exists_cons_of_length_eq_add_one hlen
      obtain ⟨mid, hrow, htail⟩ := h
      exact ⟨row, mid, hrow, tail, after, ⟨Nat.succ.inj hlen, htail⟩, rfl, rfl⟩

end BitRow

end BitLinear
