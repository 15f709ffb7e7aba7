import BitLinear.Proofs.Checks
import BitLinear.Proofs.InversionCommands
import BitLinear.Proofs.Messages

/-!
# The stages of a command

Inverting, applying and taking the trace all start from a file. `FailsAt` says which of their stages
fail and what each is to report, in terms of the file, of the vector and of the shape of the matrix.
The vector is read without the file, so that more than one stage can fail, as with a missing file
and a vector that is not hexadecimal. The one that is reported is the first
(`FirstFailsAt.outcome_eq`), and nothing is printed before it. If no stage fails the command
succeeds (`succeeds_of_not_failsAt`).

A report is a heading for the stage and the cause (`FailsAt.reports`). The headings of a command
begin with different letters, which tells the stages apart (`Reports.stage_eq`), and at one stage
the cause tells the failure (`FailsAt.eq_of_report_eq`), so that a report is that of one failure
only. The last statement is that every run on a file succeeds or is reported so.
-/

namespace BitLinear

variable {files files' : Files} {entropy : List Byte} {command : Command} {path : String}

namespace Command

/-! ## Stages -/

/-- The stages of a command on a file. -/
inductive Stage where
  /-- The file is there and holds UTF-8. -/
  | file
  /-- Its text is read as a matrix. -/
  | matrix
  /-- The vector is read. -/
  | vector
  /-- The operation has a result. -/
  | operation
deriving DecidableEq

/-- The place of a stage in the order in which they are gone through. -/
def Stage.position : Stage → ℕ
  | .file => 0
  | .matrix => 1
  | .vector => 2
  | .operation => 3

/-- A stage fails, with the failure that is to be reported if no earlier stage fails. -/
inductive FailsAt (files : Files) : Command → Stage → Failure → Prop
  | notFound {command : Command} {path : String} (hpath : command.input? = some path)
      (hfile : files path = none) : FailsAt files command .file (.fileNotRead path .notFound)
  | notUtf8 {command : Command} {path : String} {bytes : ByteArray}
      (hpath : command.input? = some path) (hfile : files path = some bytes)
      (hvalid : ¬bytes.IsValidUTF8) : FailsAt files command .file (.fileNotRead path .notUtf8)
  | notParsed {command : Command} {path text : String} {cause : Error}
      (hpath : command.input? = some path) (htext : files.readText path = .ok text)
      (hparse : BitMatrix.parse text = .error cause) :
      FailsAt files command .matrix (.matrixNotParsed path cause)
  | notDecoded {path vector : String} {cause : Error}
      (hvector : BitRow.parse vector = .error cause) :
      FailsAt files (.apply path vector) .vector (.vectorNotDecoded cause)
  | width {path vector : String} {m : BitMatrix} {column : BitRow} (hm : files.Loads path m)
      (hvector : BitRow.parse vector = .ok column) (hwidth : column.length ≠ m.cols) :
      FailsAt files (.apply path vector) .operation
        (.matrixNotApplied (.shapeMismatch m.size (column.length, 1)))
  | rows {path vector : String} {m : BitMatrix} {column : BitRow} (hm : files.Loads path m)
      (hvector : BitRow.parse vector = .ok column) (hwidth : column.length = m.cols)
      (hrows : m.rows.length % 8 ≠ 0) :
      FailsAt files (.apply path vector) .operation
        (.matrixNotApplied (.unaligned m.rows.length))
  | invertNotSquare {path : String} {m : BitMatrix} (hm : files.Loads path m)
      (hsquare : m.rows.length ≠ m.cols) : FailsAt files (.invert path) .operation
        (.matrixNotInverted (.notSquare m.rows.length m.cols))
  | singular {path : String} {m : BitMatrix} {n : ℕ} (hm : files.Loads path m)
      (hshape : m.HasShape n n) (hunit : ¬IsUnit (m.toMatrix n n)) :
      FailsAt files (.invert path) .operation .singular
  | traceNotSquare {path : String} {m : BitMatrix} (hm : files.Loads path m)
      (hsquare : m.rows.length ≠ m.cols) : FailsAt files (.trace path) .operation
        (.traceNotComputed (.notSquare m.rows.length m.cols))

/-- All stages pass. -/
inductive Succeeds (files : Files) : Command → Prop
  | invert {path : String} {m : BitMatrix} {n : ℕ} (hm : files.Loads path m)
      (hshape : m.HasShape n n) (hunit : IsUnit (m.toMatrix n n)) : Succeeds files (.invert path)
  | apply {path vector : String} {m : BitMatrix} {column : BitRow} (hm : files.Loads path m)
      (hvector : BitRow.parse vector = .ok column) (hwidth : column.length = m.cols)
      (hrows : m.rows.length % 8 = 0) : Succeeds files (.apply path vector)
  | trace {path : String} {m : BitMatrix} (hm : files.Loads path m)
      (hsquare : m.rows.length = m.cols) : Succeeds files (.trace path)

/-- The first stage that fails. -/
structure FirstFailsAt (files : Files) (command : Command) (stage : Stage) (failure : Failure) :
    Prop where
  failsAt : FailsAt files command stage failure
  not_earlier : ∀ earlier, earlier.position < stage.position →
    ∀ other, ¬FailsAt files command earlier other

/-! ## What the stages decide -/

theorem run_eq_bind (hpath : command.input? = some path) :
    ∃ next, command.run files entropy = loadMatrix files path >>= next := by
  cases command with
  | invert input =>
    obtain rfl := Option.some.inj hpath
    exact ⟨_, rfl⟩
  | apply input vector =>
    obtain rfl := Option.some.inj hpath
    exact ⟨_, rfl⟩
  | trace input =>
    obtain rfl := Option.some.inj hpath
    exact ⟨_, rfl⟩
  | random | demo => cases hpath

/-- Unless a stage fails for which the file is enough, the matrix is read. -/
theorem exists_loads (hpath : command.input? = some path)
    (hfile : ∀ failure, ¬FailsAt files command .file failure)
    (hmatrix : ∀ failure, ¬FailsAt files command .matrix failure) : ∃ m, files.Loads path m := by
  rcases hbytes : files path with _ | bytes
  · exact absurd (.notFound hpath hbytes) (hfile _)
  by_cases hvalid : bytes.IsValidUTF8
  · have htext := Files.readText_eq_ok hbytes hvalid
    rcases hparse : BitMatrix.parse (String.fromUTF8 bytes hvalid) with cause | m
    · exact absurd (.notParsed hpath htext hparse) (hmatrix _)
    · exact ⟨m, _, htext, hparse⟩
  · exact absurd (.notUtf8 hpath hbytes hvalid) (hfile _)

/-- A command on a file of which no stage fails succeeds. -/
theorem succeeds_of_not_failsAt (hpath : command.input? = some path)
    (h : ∀ stage failure, ¬FailsAt files command stage failure) : Succeeds files command := by
  obtain ⟨m, hm⟩ := exists_loads hpath (h .file) (h .matrix)
  cases command with
  | invert input =>
    obtain rfl := Option.some.inj hpath
    have hsquare : m.rows.length = m.cols := by_contra fun hne => h _ _ (.invertNotSquare hm hne)
    have hshape := hm.wellFormed.hasShape_square hsquare
    exact .invert hm hshape (by_contra fun hunit => h _ _ (.singular hm hshape hunit))
  | apply input vector =>
    obtain rfl := Option.some.inj hpath
    rcases hvector : BitRow.parse vector with cause | column
    · exact absurd (.notDecoded hvector) (h _ _)
    have hwidth : column.length = m.cols := by_contra fun hne => h _ _ (.width hm hvector hne)
    exact .apply hm hvector hwidth (by_contra fun hne => h _ _ (.rows hm hvector hwidth hne))
  | trace input =>
    obtain rfl := Option.some.inj hpath
    exact .trace hm (by_contra fun hne => h _ _ (.traceNotSquare hm hne))
  | random | demo => cases hpath

/-- Of the stages that fail one is the first. -/
theorem exists_firstFailsAt {stage : Stage} {failure : Failure}
    (h : FailsAt files command stage failure) :
    ∃ first failure, FirstFailsAt files command first failure := by
  obtain ⟨first, ⟨failure, hfirst⟩, hleast⟩ := (measure Stage.position).wf.has_min
    {stage | ∃ failure, FailsAt files command stage failure} ⟨stage, failure, h⟩
  exact ⟨first, failure, hfirst, fun earlier hlt other hearlier =>
    hleast earlier ⟨other, hearlier⟩ hlt⟩

theorem Succeeds.outcome_eq (h : Succeeds files command) (entropy : List Byte) :
    ∃ stdout, (command.run files entropy).outcome = ⟨0, stdout, ""⟩ := by
  cases h with
  | invert hm hshape hunit =>
    obtain ⟨b, hb⟩ := (BitMatrix.exists_invert_iff hshape).mpr hunit
    exact ⟨_, by rw [run, hm.outcome_invert, hb]⟩
  | apply hm hvector hwidth hrows =>
    have happly := BitMatrix.apply_eq_ok hm.wellFormed.hasShape hrows hwidth
    exact ⟨_, by rw [run, hm.outcome_apply_of_parse hvector, happly]⟩
  | trace hm hsquare =>
    have htrace := (hm.wellFormed.hasShape_square hsquare).trace_eq_ok
    exact ⟨_, by rw [run, hm.outcome_trace, htrace]⟩

/-- The first stage that fails is reported, and nothing is printed. -/
theorem FirstFailsAt.outcome_eq {stage : Stage} {failure : Failure}
    (h : FirstFailsAt files command stage failure) :
    (command.run files entropy).outcome = ⟨1, "", failure.report⟩ := by
  obtain ⟨hfails, hearlier⟩ := h
  cases hfails with
  | notFound hpath hfile =>
    obtain ⟨next, hrun⟩ := run_eq_bind hpath
    rw [hrun, outcome_bind_of_readText (Files.readText_eq_notFound hfile)]
  | notUtf8 hpath hfile hvalid =>
    obtain ⟨next, hrun⟩ := run_eq_bind hpath
    rw [hrun, outcome_bind_of_readText (Files.readText_eq_notUtf8 hfile hvalid)]
  | notParsed hpath htext hparse =>
    obtain ⟨next, hrun⟩ := run_eq_bind hpath
    rw [hrun, outcome_bind_of_parse htext hparse]
  | notDecoded hvector =>
    -- the vector fails by itself, so that the matrix is read only since no earlier stage fails
    obtain ⟨m, hm⟩ := exists_loads rfl (hearlier .file (by decide)) (hearlier .matrix (by decide))
    rw [run, hm.outcome_apply, hvector]
  | width hm hvector hwidth =>
    have herror := hm.wellFormed.apply_eq_error_iff.mpr (.inl ⟨hwidth, rfl⟩)
    rw [run, hm.outcome_apply_of_parse hvector, herror]
  | rows hm hvector hwidth hrows =>
    have herror := hm.wellFormed.apply_eq_error_iff.mpr (.inr ⟨hwidth, hrows, rfl⟩)
    rw [run, hm.outcome_apply_of_parse hvector, herror]
  | invertNotSquare hm hsquare =>
    rw [run, hm.outcome_invert, hm.wellFormed.invert_eq_error_iff.mpr ⟨hsquare, rfl⟩]
  | singular hm hshape hunit =>
    rw [run, hm.outcome_invert, (BitMatrix.invert_eq_none_iff hshape).mpr hunit]
  | traceNotSquare hm hsquare =>
    rw [run, hm.outcome_trace, hm.wellFormed.trace_eq_error_iff.mpr ⟨hsquare, rfl⟩]

/-! ## What is reported -/

variable {stage stage' : Stage} {failure failure' : Failure}

/-- How a report names the stage that failed. -/
inductive Heading : Command → Stage → String → Prop
  | file {command : Command} {path : String} (hpath : command.input? = some path) :
    Heading command .file ("read " ++ path)
  | matrix {command : Command} {path : String} (hpath : command.input? = some path) :
    Heading command .matrix ("parse matrix from " ++ path)
  | vector {path vector : String} : Heading (.apply path vector) .vector "decode vector hex"
  | invert {path : String} : Heading (.invert path) .operation "invert matrix"
  | apply {path vector : String} : Heading (.apply path vector) .operation "apply matrix"
  | trace {path : String} : Heading (.trace path) .operation "compute trace"

/-- The text of a report: the stage and, on a line of its own, the cause. Of a matrix without an
inverse there is no cause to give. -/
inductive Reports (command : Command) : Stage → Failure → String → Prop
  | caused {stage : Stage} {failure : Failure} {heading cause : String}
    (hheading : Heading command stage heading) (hcause : failure.cause? = some cause) :
    Reports command stage failure
      ("Error: " ++ heading ++ "\n\nCaused by:\n    " ++ cause ++ "\n")
  | singular : Reports command .operation .singular "Error: matrix is singular\n"

theorem FailsAt.reports (h : FailsAt files command stage failure) :
    Reports command stage failure failure.report := by
  cases h with
  | notFound hpath | notUtf8 hpath => exact .caused (.file hpath) rfl
  | notParsed hpath => exact .caused (.matrix hpath) rfl
  | notDecoded => exact .caused .vector rfl
  | width | rows => exact .caused .apply rfl
  | invertNotSquare => exact .caused .invert rfl
  | singular => exact .singular
  | traceNotSquare => exact .caused .trace rfl

/-- The stage that the first letter of a heading stands for. -/
def Stage.ofInitial : Char → Stage
  | 'r' => .file
  | 'p' => .matrix
  | 'd' => .vector
  | _ => .operation

theorem Heading.initial {heading : String} (h : Heading command stage heading) (rest : String) :
    (heading ++ rest).toList.head?.map Stage.ofInitial = some stage := by
  cases h with
  | file | matrix =>
    rw [String.append_assoc, Text.head?_append (by decide)]
    decide
  | vector | invert | apply | trace =>
    rw [Text.head?_append (by decide)]
    decide

theorem Reports.exists_initial {text : String} (h : Reports command stage failure text) :
    ∃ rest, text = "Error: " ++ rest ∧ rest.toList.head?.map Stage.ofInitial = some stage := by
  cases h with
  | caused hheading hcause =>
    rw [String.append_assoc, String.append_assoc, String.append_assoc]
    exact ⟨_, rfl, hheading.initial _⟩
  | singular => exact ⟨"matrix is singular\n", rfl, by decide⟩

theorem Reports.ne_empty {text : String} (h : Reports command stage failure text) :
    "" ≠ text := by
  rintro rfl
  obtain ⟨rest, hrest, -⟩ := h.exists_initial
  have hhead := congrArg (fun text : String => text.toList.head?) hrest
  rw [Text.head?_append (by decide)] at hhead
  exact absurd hhead (by decide)

/-- The stage is told by the first letter of its heading. -/
theorem Reports.stage_eq {text : String} (h : Reports command stage failure text)
    (h' : Reports command stage' failure' text) : stage = stage' := by
  obtain ⟨rest, rfl, hstage⟩ := h.exists_initial
  obtain ⟨rest', hrest, hstage'⟩ := h'.exists_initial
  obtain rfl := (String.append_right_inj _).mp hrest
  exact Option.some.inj (hstage.symm.trans hstage')

theorem FailsAt.exists_of_file (h : FailsAt files command .file failure) :
    ∃ path cause, command.input? = some path ∧ failure = .fileNotRead path cause := by
  cases h with
  | notFound hpath | notUtf8 hpath => exact ⟨_, _, hpath, rfl⟩

theorem FailsAt.eq_of_operation (h : FailsAt files command .operation failure)
    (h' : FailsAt files' command .operation failure') (hreport : failure.report = failure'.report) :
    failure = failure' := by
  -- applying and inverting can each fail in two ways; their headings do not tell these apart
  have happly (left right : ℕ × ℕ) (bits : ℕ) :
      (Failure.matrixNotApplied (.shapeMismatch left right)).report ≠
        (Failure.matrixNotApplied (.unaligned bits)).report := fun heq =>
    Error.message_shapeMismatch_ne _ _ _ (Failure.cause_eq_of_report_eq heq rfl rfl rfl)
  have hinvert (r c : ℕ) : (Failure.matrixNotInverted (.notSquare r c)).report ≠
      Failure.singular.report := by
    intro heq
    have hsingular : Failure.singular.report = "Error: " ++ ("matrix is singular" ++ "\n") :=
      String.append_assoc
    rw [Failure.report_eq_of_cause rfl, hsingular] at heq
    simp only [String.append_assoc, String.append_right_inj] at heq
    exact Text.append_ne_append (s := "invert matrix") (by decide) (by decide) (by decide) _ _ heq
  cases h with
  | width =>
    cases h' with
    | width =>
      have hcause := Failure.cause_eq_of_report_eq hreport rfl rfl rfl
      obtain ⟨hleft, hright⟩ := Error.message_shapeMismatch_inj hcause
      rw [hleft, hright]
    | rows => exact absurd hreport (happly _ _ _)
  | rows =>
    cases h' with
    | width => exact absurd hreport.symm (happly _ _ _)
    | rows =>
      have hcause := Failure.cause_eq_of_report_eq hreport rfl rfl rfl
      rw [Error.message_unaligned_inj hcause]
  | invertNotSquare =>
    cases h' with
    | invertNotSquare =>
      have hcause := Failure.cause_eq_of_report_eq hreport rfl rfl rfl
      obtain ⟨hrows, hcols⟩ := Error.message_notSquare_inj hcause
      rw [hrows, hcols]
    | singular => exact absurd hreport (hinvert _ _)
  | singular =>
    cases h' with
    | invertNotSquare => exact absurd hreport.symm (hinvert _ _)
    | singular => rfl
  | traceNotSquare =>
    cases h' with
    | traceNotSquare =>
      have hcause := Failure.cause_eq_of_report_eq hreport rfl rfl rfl
      obtain ⟨hrows, hcols⟩ := Error.message_notSquare_inj hcause
      rw [hrows, hcols]

/-- A report tells which failure of the command it is for, whatever the files are. -/
theorem FailsAt.eq_of_report_eq (h : FailsAt files command stage failure)
    (h' : FailsAt files' command stage failure') (hreport : failure.report = failure'.report) :
    failure = failure' := by
  cases stage with
  | file =>
    obtain ⟨path, cause, hpath, rfl⟩ := h.exists_of_file
    obtain ⟨path', cause', hpath', rfl⟩ := h'.exists_of_file
    obtain rfl := Option.some.inj (hpath.symm.trans hpath')
    have hcause := Failure.cause_eq_of_report_eq hreport rfl rfl rfl
    rw [ReadError.message_injective hcause]
  | matrix =>
    cases h with
    | notParsed hpath _ hparse =>
      cases h' with
      | notParsed hpath' _ hparse' =>
        obtain rfl := Option.some.inj (hpath.symm.trans hpath')
        have hcause := Failure.cause_eq_of_report_eq hreport rfl rfl rfl
        rw [BitMatrix.parse_error_inj hparse hparse' hcause]
  | vector =>
    cases h with
    | notDecoded hvector =>
      cases h' with
      | notDecoded hvector' =>
        have hcause := Failure.cause_eq_of_report_eq hreport rfl rfl rfl
        rw [BitRow.parse_error_inj hvector hvector' hcause]
  | operation => exact h.eq_of_operation h' hreport

/-- Of all failures that the command can have, the first is the one that is reported. -/
theorem FirstFailsAt.report_iff (h : FirstFailsAt files command stage failure)
    (h' : FailsAt files' command stage' failure') :
    (command.run files entropy).outcome.stderr = failure'.report ↔
      FirstFailsAt files command stage' failure' := by
  refine ⟨fun hreport => ?_, fun hfirst => by rw [hfirst.outcome_eq]⟩
  have hsame : failure.report = failure'.report := by rwa [h.outcome_eq] at hreport
  have hreports := h.failsAt.reports
  rw [hsame] at hreports
  obtain rfl := hreports.stage_eq h'.reports
  obtain rfl := h.failsAt.eq_of_report_eq h' hsame
  exact h

/-! ## Runs -/

/-- How a run of a command on a file ends. -/
structure EndsByStages (files : Files) (command : Command) (outcome : Outcome) : Prop where
  /-- It succeeds exactly if all stages pass. -/
  exit_zero_iff : outcome.exitCode = 0 ↔ Succeeds files command
  /-- These are the runs of which no stage fails. -/
  exit_zero_iff_not_failsAt :
    outcome.exitCode = 0 ↔ ∀ stage failure, ¬FailsAt files command stage failure
  stderr_eq_empty : outcome.exitCode = 0 → outcome.stderr = ""
  /-- Otherwise some stage is the first to fail. -/
  exists_first : outcome.exitCode ≠ 0 → ∃ stage failure, FirstFailsAt files command stage failure
  /-- Whatever later stages would do, this stage is reported and nothing is printed. -/
  reports_first : ∀ stage failure, FirstFailsAt files command stage failure →
    outcome = ⟨1, "", failure.report⟩
  /-- The report is the stage, under its own heading, with the cause. -/
  reports : ∀ stage failure, FirstFailsAt files command stage failure →
    Reports command stage failure outcome.stderr
  /-- No other failure that the command can have, with these or other files, has this report. -/
  report_iff : ∀ files' stage failure, FailsAt files' command stage failure →
    (outcome.stderr = failure.report ↔ FirstFailsAt files command stage failure)

/-- A run on a file succeeds exactly if the file is read as a matrix, the vector is read, and the
shape of the matrix allows the operation, where inversion needs a matrix that is not singular.
Otherwise it reports the first of these stages that fails and prints nothing. -/
theorem execute_endsByStages (files : Files) (entropy : List Byte) {args : List String}
    (hargs : Request.parse args = .ok (.run command)) (hpath : command.input? = some path) :
    EndsByStages files command (execute files entropy args) := by
  rw [execute_eq hargs]
  by_cases hfails : ∃ stage failure, FailsAt files command stage failure
  · obtain ⟨stage, failure, hstage⟩ := hfails
    obtain ⟨first, reported, hfirst⟩ := exists_firstFailsAt hstage
    have hexit : (command.run files entropy).outcome.exitCode ≠ 0 := by
      rw [hfirst.outcome_eq]
      simp
    refine ⟨iff_of_false hexit fun hsucceeds => ?_, iff_of_false hexit fun hnone => ?_,
      fun hzero => absurd hzero hexit, fun _ => ⟨first, reported, hfirst⟩,
      fun _ _ h => h.outcome_eq, fun _ _ h => ?_, fun _ _ _ h => hfirst.report_iff h⟩
    · obtain ⟨stdout, hstdout⟩ := hsucceeds.outcome_eq entropy
      rw [hstdout] at hexit
      exact hexit rfl
    · exact hnone stage failure hstage
    · rw [h.outcome_eq]
      exact h.failsAt.reports
  · have hnone (stage : Stage) (failure : Failure) : ¬FailsAt files command stage failure :=
      fun h => hfails ⟨stage, failure, h⟩
    have hsucceeds := succeeds_of_not_failsAt hpath hnone
    obtain ⟨stdout, hstdout⟩ := hsucceeds.outcome_eq entropy
    rw [hstdout]
    refine ⟨iff_of_true rfl hsucceeds, iff_of_true rfl hnone, fun _ => rfl,
      fun hexit => absurd rfl hexit, fun _ _ h => absurd h.failsAt (hnone _ _),
      fun _ _ h => absurd h.failsAt (hnone _ _), fun _ _ _ h => ?_⟩
    exact iff_of_false h.reports.ne_empty fun hfirst => hnone _ _ hfirst.failsAt

/-- A missing file and a vector with an odd number of digits, and an empty file, which says the
matrix without rows. -/
theorem execute_endsByStages_missing :
    let files : Files := fun path => if path = "e" then some ByteArray.empty else none
    FailsAt files (.apply "m" "0") .vector (.vectorNotDecoded (.invalidHex .oddLength)) ∧
      execute files [] ["apply", "--vector", "0", "--input", "m"] =
        ⟨1, "", "Error: read m\n\nCaused by:\n    No such file or directory (os error 2)\n"⟩ ∧
      (execute files [] ["invert", "--input", "e"]).exitCode = 0 := by
  intro files
  refine ⟨.notDecoded (by cbv), ?_, ?_⟩
  · have hends := execute_endsByStages files []
      (show Request.parse ["apply", "--vector", "0", "--input", "m"] =
        .ok (.run (.apply "m" "0")) by cbv) rfl
    have hfirst : FirstFailsAt files (.apply "m" "0") .file (.fileNotRead "m" .notFound) :=
      ⟨.notFound rfl (by cbv), fun earlier hearlier => absurd hearlier (Nat.not_lt_zero _)⟩
    have hreport : (Failure.fileNotRead "m" .notFound).report =
        "Error: read m\n\nCaused by:\n    No such file or directory (os error 2)\n" := by rfl
    rw [hends.reports_first _ _ hfirst, hreport]
  · have hends := execute_endsByStages files []
      (show Request.parse ["invert", "--input", "e"] = .ok (.run (.invert "e")) by cbv) rfl
    have hloads : files.Loads "e" ⟨[], 0⟩ := ⟨"", by cbv, by cbv⟩
    have hshape : (⟨[], 0⟩ : BitMatrix).HasShape 0 0 := by decide
    exact hends.exit_zero_iff.mpr (.invert hloads hshape (isUnit_of_subsingleton _))

end Command

end BitLinear
