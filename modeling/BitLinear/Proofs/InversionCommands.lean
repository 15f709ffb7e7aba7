import BitLinear.Proofs.Commands
import BitLinear.Proofs.InverseLaws
import BitLinear.Proofs.Masking
import BitLinear.Proofs.MatrixText

/-!
# Inverting twice on the command line

A printed matrix is read back from a file that holds what was printed (`Files.Holds.loads`), since
a square matrix is legible and the line end behind it says nothing. So what holds of inverses holds
of the commands : inverting the printed inverse prints the matrix, applying it to a printed image
prints the vector, and of two matrices that are drawn and printed together the second is what
inverting the first prints.
-/

open Matrix

namespace BitLinear

variable {n : ℕ} {a b m inverse : BitMatrix} {files : Files} {path : String}

/-! ## Reading back what was printed -/

namespace BitMatrix

/-- A square matrix has a row and a column, or neither. -/
theorem HasShape.isLegible (h : m.HasShape n n) : m.IsLegible := by
  by_cases hn : n = 0
  · right
    obtain ⟨rows, cols⟩ := m
    have hrows : rows.length = 0 := h.length_rows.trans hn
    have hcols : cols = 0 := h.cols_eq.trans hn
    rw [hcols, List.length_eq_zero_iff.mp hrows]
  · left
    refine ⟨fun hrows => hn ?_, fun hcols => hn (h.cols_eq.symm.trans hcols)⟩
    rw [← h.length_rows, hrows, List.length_nil]

/-- A line end behind a rendered matrix says nothing. -/
theorem HasShape.parse_render_newline (h : m.HasShape n n) :
    parse m.render = .ok m ∧ parse (m.render ++ "\n") = .ok m := by
  have hparse := h.1.parse_render_eq_ok_iff.mpr h.isLegible
  have hedit : Text.Edit m.render.toList (m.render ++ "\n").toList := by
    have hblank : ∀ c ∈ ['\n'], Text.isBlank c := List.forall_mem_singleton.mpr rfl
    simpa using Text.Edit.after m.render.toList [] ['\n'] hblank (Or.inl rfl)
  exact ⟨hparse, ofDigitLines_of_edits (Relation.ReflTransGen.single hedit) hparse⟩

/-- The matrices with an inverse are the square ones that are units. -/
theorem WellFormed.exists_invert_iff (hm : m.WellFormed) :
    (∃ b, m.invert = .ok (some b)) ↔ ∃ n, m.HasShape n n ∧ IsUnit (m.toMatrix n n) := by
  refine ⟨fun ⟨b, hb⟩ => ?_, fun ⟨n, hshape, hunit⟩ =>
    (BitMatrix.exists_invert_iff hshape).mpr hunit⟩
  by_cases hsquare : m.rows.length = m.cols
  · have hshape : m.HasShape m.cols m.cols := hm.hasShape_square hsquare
    exact ⟨m.cols, hshape, (BitMatrix.exists_invert_iff hshape).mp ⟨b, hb⟩⟩
  · rw [invert, checkSquare_eq_error hsquare] at hb
    cases hb

end BitMatrix

theorem append_newline_inj {s t : String} : s ++ "\n" = t ++ "\n" ↔ s = t := by
  refine ⟨fun h => String.toList_inj.mp ?_, fun h => h ▸ rfl⟩
  have hlist := congrArg String.toList h
  rwa [String.toList_append, String.toList_append, List.append_left_inj] at hlist

/-- A file holds a printed text, with or without the line end behind it. -/
def Files.Holds (files : Files) (path printed : String) : Prop :=
  ∃ text, files.readText path = .ok text ∧ (text = printed ∨ text ++ "\n" = printed)

theorem Files.Holds.loads (h : files.Holds path (m.render ++ "\n")) (hm : m.HasShape n n) :
    files.Loads path m := by
  obtain ⟨hparse, hnewline⟩ := hm.parse_render_newline
  obtain ⟨text, htext, rfl | heq⟩ := h
  · exact ⟨_, htext, hnewline⟩
  · exact ⟨text, htext, append_newline_inj.mp heq ▸ hparse⟩

theorem Files.Loads.wellFormed (h : files.Loads path m) : m.WellFormed := by
  obtain ⟨text, -, hm⟩ := h
  exact (BitMatrix.ofDigitLines_eq_ok_iff.mp hm).1

theorem Files.Loads.exitCode_invert_iff (h : files.Loads path m) :
    (Command.runInvert files path).outcome.exitCode = 0 ↔ ∃ b, m.invert = .ok (some b) := by
  rw [h.outcome_invert]
  rcases m.invert with cause | _ | b <;> simp

/-- Inversion that succeeds prints a matrix whose inverse is the one in the file. -/
theorem Files.Loads.of_exitCode_invert (h : files.Loads path m)
    (hexit : (Command.runInvert files path).outcome.exitCode = 0) :
    ∃ n b, m.HasShape n n ∧ b.HasShape n n ∧ m.invert = .ok (some b) ∧ b.invert = .ok (some m) ∧
      (Command.runInvert files path).outcome.stdout = b.render ++ "\n" := by
  obtain ⟨b, hb⟩ := h.exitCode_invert_iff.mp hexit
  obtain ⟨n, hm, -⟩ := h.wellFormed.exists_invert_iff.mp ⟨b, hb⟩
  obtain ⟨hshape, hback⟩ := hm.invert_inverse hb
  exact ⟨n, b, hm, hshape, hb, hback, by rw [h.outcome_invert, hb]⟩

/-- Application that succeeds has read the vector, and prints what the matrix makes of it. -/
theorem Files.Loads.of_exitCode_apply (h : files.Loads path m) {vector : String}
    (hexit : (Command.runApply files path vector).outcome.exitCode = 0) :
    ∃ column output, BitRow.parse vector = .ok column ∧ m.apply column = .ok output ∧
      (Command.runApply files path vector).outcome.stdout = output.render ++ "\n" := by
  rcases hcolumn : BitRow.parse vector with cause | column
  · rw [h.outcome_apply, hcolumn] at hexit
    simp at hexit
  have houtcome := h.outcome_apply_of_parse hcolumn
  rcases houtput : m.apply column with cause | output
  · rw [houtcome, houtput] at hexit
    simp at hexit
  · exact ⟨column, output, rfl, houtput, by rw [houtcome, houtput]⟩

/-! ## The commands -/

/-- What inversion prints of a matrix in a file, and what the commands make of that. -/
structure InvertsBack (files : Files) (entropy : List Byte) (path : String) (m : BitMatrix) :
    Prop where
  /-- Inversion succeeds exactly on the square matrices that are not singular. -/
  exit_zero_iff : ∀ args, Request.parse args = .ok (.run (.invert path)) →
    ((execute files entropy args).exitCode = 0 ↔ ∃ n, m.HasShape n n ∧ IsUnit (m.toMatrix n n))
  /-- Inverting what was printed prints the matrix. -/
  invert : ∀ args, Request.parse args = .ok (.run (.invert path)) →
    (execute files entropy args).exitCode = 0 →
    ∀ (files' : Files) path', files'.Holds path' (execute files entropy args).stdout →
    ∀ entropy' args', Request.parse args' = .ok (.run (.invert path')) →
      execute files' entropy' args' = ⟨0, m.render ++ "\n", ""⟩
  /-- Applying what was printed to a printed image prints the vector. -/
  apply : ∀ args, Request.parse args = .ok (.run (.invert path)) →
    (execute files entropy args).exitCode = 0 →
    ∀ (files' : Files) path', files'.Holds path' (execute files entropy args).stdout →
    ∀ args₁ v w, Request.parse args₁ = .ok (.run (.apply path v)) →
      (execute files entropy args₁).exitCode = 0 →
      (execute files entropy args₁).stdout = w ++ "\n" →
    ∀ entropy' args₂, Request.parse args₂ = .ok (.run (.apply path' w)) →
      execute files' entropy' args₂ =
        ⟨0, String.ofList ((Text.trim v.toList).map Char.toLower) ++ "\n", ""⟩

/-- Two matrices are printed, and inverting the first of them prints the second. -/
def PrintsInverses (outcome : Outcome) (size : ℕ) : Prop :=
  ∃ a b : BitMatrix, a.HasShape size size ∧ b.HasShape size size ∧
    outcome.stdout = a.render ++ "\n" ++ ("\n" ++ b.render ++ "\n") ∧
    ∀ (files : Files) path, files.Holds path (a.render ++ "\n") →
    ∀ entropy args, Request.parse args = .ok (.run (.invert path)) →
      execute files entropy args = ⟨0, b.render ++ "\n", ""⟩

theorem Files.Loads.invertsBack (h : files.Loads path m) (entropy : List Byte) :
    InvertsBack files entropy path m where
  exit_zero_iff args hargs := by
    rw [execute_eq hargs, ← h.wellFormed.exists_invert_iff]
    exact h.exitCode_invert_iff
  invert args hargs hexit files' path' hholds entropy' args' hargs' := by
    rw [execute_eq hargs] at hexit hholds
    obtain ⟨n, b, hm, hb, -, hback, hprinted⟩ := h.of_exitCode_invert hexit
    have hloads : files'.Loads path' b := Files.Holds.loads (hprinted ▸ hholds) hb
    rw [execute_eq hargs', Command.run, hloads.outcome_invert, hback]
  apply args hargs hexit files' path' hholds args₁ v w hargs₁ hexit₁ hw entropy' args₂ hargs₂ := by
    rw [execute_eq hargs] at hexit hholds
    obtain ⟨n, b, hm, hb, hinv, -, hprinted⟩ := h.of_exitCode_invert hexit
    have hloads : files'.Loads path' b := Files.Holds.loads (hprinted ▸ hholds) hb
    rw [execute_eq hargs₁] at hexit₁ hw
    obtain ⟨column, output, hcolumn, houtput, hstdout⟩ := h.of_exitCode_apply hexit₁
    obtain rfl : output.render = w := append_newline_inj.mp (hstdout.symm.trans hw)
    have hvector : (Text.trim v.toList).map Char.toLower = column.digits :=
      BitRow.ofDigits_eq_ok_iff.mp hcolumn
    rw [execute_eq hargs₂, Command.run, hloads.outcome_apply_of_parse output.parse_render,
      hm.apply_inverse hinv houtput, hvector]
    rfl

theorem printsInverses_of_exitCode {size : ℕ} {seed : Option ℕ} {config : GeneratorConfig}
    {args : List String} (hargs : Request.parse args = .ok (.run (.random size seed config true)))
    {entropy : List Byte} (hexit : (execute files entropy args).exitCode = 0) :
    PrintsInverses (execute files entropy args) size := by
  rw [execute_eq hargs, Command.run, outcome_random] at hexit ⊢
  rcases hdrawn : (Generator.run ⟨seededSource seed entropy, config⟩
    (Generator.randomInvertible size)).1 with cause | ⟨a, b⟩
  · rw [hdrawn] at hexit
    simp at hexit
  · obtain ⟨ha, hinv⟩ := Generator.of_randomInvertible_eq_ok (Prod.ext hdrawn rfl)
    obtain ⟨hb, -⟩ := ha.invert_inverse hinv
    refine ⟨a, b, ha, hb, rfl, fun files path hholds entropy args hargs => ?_⟩
    rw [execute_eq hargs, Command.run, (hholds.loads ha).outcome_invert, hinv]

/-- For every file from which a matrix is read : inversion succeeds exactly if the matrix is square
and not singular, and then inverting what was printed prints the matrix in its canonical form, and
applying it to a printed image prints the vector, trimmed and in lower case. Whenever a matrix is
drawn and printed with its inverse, by any strategy, from any seed and of any size, inverting the
first of the two prints the second. -/
theorem inversion_commands_round_trip (files : Files) (entropy : List Byte) :
    (∀ path m, files.Loads path m → InvertsBack files entropy path m) ∧
      ∀ size seed config args, Request.parse args = .ok (.run (.random size seed config true)) →
        (execute files entropy args).exitCode = 0 →
          PrintsInverses (execute files entropy args) size :=
  ⟨fun _ _ h => h.invertsBack entropy, fun _ _ _ _ hargs hexit =>
    printsInverses_of_exitCode hargs hexit⟩

/-- A cyclic shift of the eight bits, its inverse in a second file, and the pair without rows. -/
theorem inversion_commands_round_trip_eight :
    let shift : BitMatrix :=
      ⟨[⟨#[2]⟩, ⟨#[4]⟩, ⟨#[8]⟩, ⟨#[16]⟩, ⟨#[32]⟩, ⟨#[64]⟩, ⟨#[128]⟩, ⟨#[1]⟩], 8⟩
    let files : Files := fun path =>
      if path = "m" then some "02\n04\n08\n10\n20\n40\n80\n01\n".toUTF8
      else if path = "s" then some "80\n01\n02\n04\n08\n10\n20\n40\n".toUTF8 else none
    files.Loads "m" shift ∧
      execute files [] ["invert", "--input", "s"] = ⟨0, shift.render ++ "\n", ""⟩ ∧
      execute files [] ["apply", "--input", "s", "--vector", "05"] = ⟨0, "0a\n", ""⟩ ∧
      PrintsInverses (execute files [] ["random", "--size=0", "--with-inverse"]) 0 := by
  intro shift files
  have hloads : files.Loads "m" shift :=
    ⟨"02\n04\n08\n10\n20\n40\n80\n01\n", by cbv, by cbv⟩
  have hinvert := Request.parse_invert (show "m" ≠ "" by decide)
  have happly := Request.parse_apply (show "m" ≠ "" by decide) " 0A"
  have hprinted : execute files [] ["invert", OptionName.input.argument "m"] =
      ⟨0, "80\n01\n02\n04\n08\n10\n20\n40\n", ""⟩ := by cbv
  have hexit : (execute files [] ["invert", OptionName.input.argument "m"]).exitCode = 0 := by
    rw [hprinted]
  have himage : execute files [] ["apply", OptionName.input.argument "m",
      OptionName.vector.argument " 0A"] = ⟨0, "05\n", ""⟩ := by
    have hvector : BitRow.parse " 0A" = .ok ⟨#[10]⟩ := by cbv
    have hcolumn : shift.apply ⟨#[10]⟩ = .ok ⟨#[5]⟩ := by decide +kernel
    rw [execute_eq happly, Command.run, hloads.outcome_apply_of_parse hvector, hcolumn]
    cbv
  have hholds :
      files.Holds "s" (execute files [] ["invert", OptionName.input.argument "m"]).stdout := by
    rw [hprinted]
    exact ⟨_, by cbv, Or.inl rfl⟩
  obtain ⟨hback, hdrawn⟩ := inversion_commands_round_trip files []
  have hinverts := hback "m" shift hloads
  refine ⟨hloads, ?_, ?_, ?_⟩
  · exact hinverts.invert _ hinvert hexit files "s" hholds [] _ (by cbv)
  · exact hinverts.apply _ hinvert hexit files "s" hholds _ " 0A" "05" happly (by rw [himage])
      (by rw [himage]; rfl) [] _ (by cbv)
  · exact hdrawn 0 none ⟨.incremental, 64⟩ _ (by cbv) (by cbv)

end BitLinear
