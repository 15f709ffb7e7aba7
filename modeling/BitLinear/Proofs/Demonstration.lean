import BitLinear.Proofs.Commands
import BitLinear.Proofs.Endless
import BitLinear.Proofs.HexText
import BitLinear.Proofs.InverseLaws
import BitLinear.Proofs.Masking
import BitLinear.Proofs.Trace

/-!
# The demonstration passes its own checks

The demonstration draws a mask with its inverse and a vector, checks that mask and inverse cancel
both ways, prints, and checks that the vector came back. A drawn pair is an invertible matrix with
its inverse, so every one of these steps passes (`Passes.of_invert`), and what is printed is what
the steps computed (`Passes.outcome`), in hexadecimal digits that say the rows (`Succeeds`).

The last statement says so of every generator and of the command. The generator of the command draws
from a keystream, which gives the vector once it gave the mask (`exists_randomRow`). If it
gives no mask of a size that fills whole bytes, then drawing one has no end.
-/

namespace BitLinear

namespace Demonstration

/-! ## The checks -/

/-- Every step of a demonstration with this mask passes. -/
structure Passes (size : ℕ) (mask unmask : BitMatrix) (plaintext masked : BitRow) : Prop where
  length_plaintext : plaintext.toBytes.length = size / 8
  length_masked : masked.toBytes.length = size / 8
  identity : BitMatrix.identity size = .ok (BitMatrix.eye size)
  mask_unmask : mask.compose unmask = .ok (BitMatrix.eye size)
  unmask_mask : unmask.compose mask = .ok (BitMatrix.eye size)
  apply_mask : mask.apply plaintext = .ok masked
  apply_unmask : unmask.apply masked = .ok plaintext
  trace : mask.trace = .ok (xorBelow size fun i => mask.entry i i)

variable {size : ℕ} {mask unmask : BitMatrix} {plaintext masked : BitRow}
variable {generator after last : Generator}

/-- An invertible matrix with its inverse passes with every vector. -/
theorem Passes.of_invert (hmask : mask.HasShape size size) (hinv : mask.invert = .ok (some unmask))
    (hplain : plaintext.length = size) :
    Passes size mask unmask plaintext (mask.image plaintext) := by
  obtain ⟨hcancel, hcancel'⟩ := hmask.compose_inverse hinv
  have happly := BitMatrix.apply_eq_ok hmask hmask.aligned hplain
  exact
    { length_plaintext := BitRow.length_toBytes hplain
      length_masked := BitRow.length_toBytes (BitMatrix.length_image hmask hmask.aligned plaintext)
      identity := BitMatrix.identity_eq_ok hmask.aligned
      mask_unmask := hcancel
      unmask_mask := hcancel'
      apply_mask := happly
      apply_unmask := hmask.apply_inverse hinv happly
      trace := hmask.trace_eq_ok }

/-- The lines that a demonstration prints, from the texts of its three vectors. -/
def lines (size : ℕ) (mask : BitMatrix) (plaintext masked unmasked : String) : List String :=
  ["dimension: " ++ toString size,
    "mask trace: " ++ bitDigit (xorBelow size fun i => mask.entry i i),
    "plaintext: " ++ plaintext, "masked: " ++ masked, "unmasked: " ++ unmasked]

/-- When every step passes, the demonstration prints to its end and succeeds. -/
theorem Passes.outcome (h : Passes size mask unmask plaintext masked)
    (hpair : generator.run (Generator.randomInvertible size) = (.ok (mask, unmask), after))
    (hrow : after.run (Generator.randomRow size) = (.ok plaintext, last)) :
    (Command.runDemo size generator).outcome =
      ⟨0, Shell.printed (lines size mask plaintext.render masked.render plaintext.render), ""⟩ := by
  have hplain := congrArg Prod.fst hrow
  rw [Shell.outcome_eq_outcomeAfter]
  unfold Command.runDemo
  rw [hpair]
  dsimp only
  rw [Shell.outcomeAfter_orFail rfl, Shell.outcomeAfter_orFail h.identity,
    Shell.outcomeAfter_orFail h.mask_unmask, if_neg (not_not_intro rfl),
    Shell.outcomeAfter_orFail h.unmask_mask, if_neg (not_not_intro rfl),
    Shell.outcomeAfter_orFail hplain, Shell.outcomeAfter_orFail h.apply_mask,
    Shell.outcomeAfter_orFail h.apply_unmask, Shell.outcomeAfter_printLine,
    Shell.outcomeAfter_orFail h.trace, Shell.outcomeAfter_printLine,
    Shell.outcomeAfter_printLine, Shell.outcomeAfter_printLine, Shell.outcomeAfter_printLine,
    if_neg (not_not_intro rfl), Shell.outcomeAfter_pure]
  rfl

/-- The outcome is that of a demonstration all of whose steps pass. The vector and what comes back
are printed as the same digits, which are those of the vector, and between them the digits of what
the mask makes of it. -/
def Succeeds (outcome : Outcome) (size : ℕ) (mask unmask : BitMatrix) (plaintext : BitRow) :
    Prop :=
  ∃ masked plainText maskedText, Passes size mask unmask plaintext masked ∧
    BitRow.IsHex size plainText plaintext ∧ BitRow.IsHex size maskedText masked ∧
    outcome = ⟨0, Shell.printed (lines size mask plainText maskedText plainText), ""⟩

theorem length_of_randomRow (hn : size % 8 = 0)
    (h : generator.run (Generator.randomRow size) = (.ok plaintext, last)) :
    plaintext.length = size := by
  rw [Generator.randomRow, Generator.run_draw] at h
  have hrow := (BitRow.random_eq_ok_iff hn).mp (Prod.ext (Prod.mk.inj h).1 rfl)
  exact BitRow.length_ofBytes hn (ByteSource.length_of_take? hrow)

/-- A demonstration for which a mask and a vector are drawn succeeds. -/
theorem runDemo_succeeds
    (hpair : generator.run (Generator.randomInvertible size) = (.ok (mask, unmask), after))
    (hrow : after.run (Generator.randomRow size) = (.ok plaintext, last)) :
    Succeeds (Command.runDemo size generator).outcome size mask unmask plaintext := by
  obtain ⟨hmask, hinv⟩ := Generator.of_randomInvertible_eq_ok hpair
  have hplain := length_of_randomRow hmask.aligned hrow
  have hpasses := Passes.of_invert hmask hinv hplain
  have hmasked := BitMatrix.length_image hmask hmask.aligned plaintext
  exact ⟨_, _, _, hpasses, BitRow.isHex_render hplain, BitRow.isHex_render hmasked,
    hpasses.outcome hpair hrow⟩

/-! ## The command -/

/-- How the demonstration ends with the generator of a key. -/
structure Ends (outcome : Outcome) (size : ℕ) (key : List Byte) : Prop where
  /-- Once the mask is drawn, the vector is drawn and every step passes. -/
  completes : ∀ mask unmask after,
    Generator.run ⟨.ofKey key, {}⟩ (Generator.randomInvertible size) =
      (.ok (mask, unmask), after) → ∃ plaintext last,
        after.run (Generator.randomRow size) = (.ok plaintext, last) ∧
          Succeeds outcome size mask unmask plaintext
  /-- No mask is drawn only if drawing it has no end. -/
  stalls : size % 8 = 0 → ∀ cause after,
    Generator.run ⟨.ofKey key, {}⟩ (Generator.randomInvertible size) = (.error cause, after) →
      RowBasis.Stalls size (.ofKey key)
  /-- A size that does not fill whole bytes is refused before anything is printed. -/
  unaligned : size % 8 ≠ 0 →
    outcome = ⟨1, "", (Failure.maskNotGenerated size (.unaligned size)).report⟩

/-- Unless it is told otherwise, a generator draws row by row. -/
theorem run_randomInvertible (source : ByteSource) :
    Generator.run ⟨source, {}⟩ (Generator.randomInvertible size) =
      (((BitMatrix.randomInvertible size).runOn source).1,
        ⟨((BitMatrix.randomInvertible size).runOn source).2, {}⟩) :=
  rfl

/-- A keystream gives the vector, once it gave the mask. -/
theorem exists_randomRow {stream : Keystream}
    (hpair : Generator.run ⟨.keystream stream, {}⟩ (Generator.randomInvertible size) =
      (.ok (mask, unmask), after)) :
    ∃ plaintext last, after.run (Generator.randomRow size) = (.ok plaintext, last) := by
  have hsize := (Generator.of_randomInvertible_eq_ok hpair).1.aligned
  rcases hrun : (BitMatrix.randomInvertible size).runOn (.keystream stream) with ⟨result, mid⟩
  rw [run_randomInvertible, hrun] at hpair
  obtain ⟨rfl, rfl⟩ := Prod.mk.inj hpair
  obtain ⟨rest, rfl⟩ := BitMatrix.exists_keystream_of_randomInvertible hsize hrun
  rw [Generator.randomRow, Generator.run_draw, BitRow.runOn_random_keystream hsize]
  exact ⟨_, _, rfl⟩

theorem runDemo_ends (size : ℕ) (key : List Byte) :
    Ends (Command.runDemo size ⟨.ofKey key, {}⟩).outcome size key where
  completes mask unmask after hpair := by
    obtain ⟨plaintext, last, hrow⟩ := exists_randomRow hpair
    exact ⟨plaintext, last, hrow, runDemo_succeeds hpair hrow⟩
  stalls hsize cause after hpair := by
    rw [run_randomInvertible, Prod.mk.injEq] at hpair
    exact BitMatrix.stalls_of_randomInvertible hsize (Prod.ext hpair.1 rfl)
  unaligned hsize := by
    unfold Command.runDemo
    rw [run_randomInvertible]
    dsimp only
    rw [BitMatrix.runOn_randomInvertible_of_unaligned hsize, Shell.outcome_orFail]

/-- A keystream gives the key. -/
theorem exists_key (seed : Option ℕ) (entropy : List Byte) :
    ∃ key rest, (Draw.bytes 32).runOn (seededSource seed entropy) = (.ok key, rest) := by
  obtain ⟨stream, hstream⟩ : ∃ stream, seededSource seed entropy = .keystream stream := by
    cases seed with
    | none => exact ⟨_, rfl⟩
    | some seed => exact ⟨_, rfl⟩
  rw [hstream, Draw.runOn_bytes]
  exact ⟨_, _, rfl⟩

theorem outcome_demo {seed : Option ℕ} {key : List Byte} {rest : ByteSource}
    {entropy : List Byte} (files : Files)
    (hkey : (Draw.bytes 32).runOn (seededSource seed entropy) = (.ok key, rest)) :
    (Command.run files entropy (.demo size seed)).outcome =
      (Command.runDemo size ⟨.ofKey key, {}⟩).outcome := by
  rw [Command.run, hkey]
  exact Shell.outcome_orFail _ _ _

/-- The demonstration never fails its own checks. Whatever the bytes of its generator are and
whichever strategy that draws by, once a mask and a vector are drawn every step passes and the
vector comes back. So the command ends for every size and every seed once the mask is drawn; a size
that does not fill whole bytes is refused before anything is printed. -/
theorem self_checks_pass (files : Files) (entropy : List Byte) :
    (∀ generator size mask unmask after plaintext last,
      Generator.run generator (Generator.randomInvertible size) = (.ok (mask, unmask), after) →
        after.run (Generator.randomRow size) = (.ok plaintext, last) →
          Succeeds (Command.runDemo size generator).outcome size mask unmask plaintext) ∧
    ∀ size seed args, Request.parse args = .ok (.run (.demo size seed)) →
      ∃ key rest, (Draw.bytes 32).runOn (seededSource seed entropy) = (.ok key, rest) ∧
        Ends (execute files entropy args) size key := by
  refine ⟨fun _ _ _ _ _ _ _ => runDemo_succeeds, fun size seed args hargs => ?_⟩
  obtain ⟨key, rest, hkey⟩ := exists_key seed entropy
  refine ⟨key, rest, hkey, ?_⟩
  rw [execute_eq hargs, outcome_demo files hkey]
  exact runDemo_ends size key

/-- A mask from a script, the demonstration of a seed, and a size that is refused. -/
theorem self_checks_pass_eight :
    Succeeds (Command.runDemo 8 ⟨.script [2, 1, 4, 8, 16, 96, 64, 255, 5], {}⟩).outcome 8
      BitMatrix.sample BitMatrix.sampleInverse ⟨#[5]⟩ ∧
    (∃ mask unmask plaintext,
      Succeeds (execute (fun _ => none) [] ["demo", OptionName.size.argument (toString 8),
        OptionName.seed.argument (toString 1)]) 8 mask unmask plaintext) ∧
    execute (fun _ => none) [] ["demo", "--size=12"] = ⟨1, "",
      "Error: generate 12x12 mask\n\nCaused by:\n    dimension 12 is not a multiple of 8\n"⟩ := by
  obtain ⟨hscript, hcommand⟩ := self_checks_pass (fun _ => none) []
  refine ⟨hscript _ _ _ _ _ _ _ (by cbv) (by cbv), ?_, ?_⟩
  · have hkey : ((Draw.bytes 32).runOn (seededSource (some 1) [])).1 =
        .ok [197, 211, 10, 124, 225, 236, 17, 147, 120, 200, 79, 72, 125, 119, 90, 133, 66, 241, 62,
          206, 35, 138, 148, 85, 232, 34, 158, 136, 141, 232, 91, 189] := by decide +kernel
    have hdrawn : (Generator.run ⟨.ofKey [197, 211, 10, 124, 225, 236, 17, 147, 120, 200, 79, 72,
        125, 119, 90, 133, 66, 241, 62, 206, 35, 138, 148, 85, 232, 34, 158, 136, 141, 232, 91,
        189], {}⟩ (Generator.randomInvertible 8)).1.isOk = true := by decide +kernel
    obtain ⟨key, rest, hkey', hends⟩ :=
      hcommand 8 (some 1) _ (Request.parse_demo (by decide) (by decide))
    obtain rfl := Except.ok.inj ((congrArg Prod.fst hkey').symm.trans hkey)
    rcases hpair : Generator.run ⟨.ofKey _, {}⟩ (Generator.randomInvertible 8) with
      ⟨cause | ⟨mask, unmask⟩, after⟩
    · rw [hpair] at hdrawn
      cases hdrawn
    · obtain ⟨plaintext, -, -, hends⟩ := hends.completes _ _ _ hpair
      exact ⟨mask, unmask, plaintext, hends⟩
  · obtain ⟨_, _, -, hends⟩ := hcommand 12 none ["demo", "--size=12"] (by cbv)
    rw [hends.unaligned (by decide)]
    rfl

end Demonstration

end BitLinear
